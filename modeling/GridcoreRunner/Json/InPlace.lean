import GridcoreRunner.Json.Mode
import GridcoreRunner.Relational

/-!
# The incremental validator in its memory

`jsonv` as a struct whose stack holds something in every slot, and its functions as they
write it. A byte that is refused leaves behind what was written before the refusal. A
probe runs in a scratch struct that received the live part of another one.
-/

namespace GridcoreRunner.Json

set_option autoImplicit false

/-- What `feed_byte` returns: the byte is refused, it is read, or it ended a value and
has still to be read. -/
inductive Fed
  | refused | kept | again
deriving DecidableEq, Repr

namespace InPlace

/-- `jsonv`; the stack holds `'O'` and `'A'`. -/
structure Jsonv where
  stack : Nat → UInt8
  depth : Nat
  st : St
  sub : Nat
  lit : Nat
  done : Bool
  esc : Nat

def objectMark : UInt8 := 0x4F
def arrayMark : UInt8 := 0x41

/-- `json_escape_hex`: whether the digit is taken, and `sub` and `esc` after it. -/
def jsonEscapeHex (sub esc : Nat) (c : UInt8) : Bool × Nat × Nat :=
  match hexDigit c with
  | none => (false, sub, esc)
  | some d =>
      let low := decide (8 ≤ sub)
      let nth := sub - if low then 8 else 2
      let val := ((if nth ≠ 0 then esc else 0) * 16 + d) % 2 ^ 16
      if low ∧ nth = 0 ∧ d ≠ 0xD then (false, sub, esc)
      else if low ∧ nth = 1 ∧ (val < 0xDC ∨ val > 0xDF) then (false, sub, esc)
      else if ¬low ∧ nth = 1 ∧ val ≥ 0xDC ∧ val ≤ 0xDF then (false, sub, esc)
      else if nth < 3 then (true, sub + 1, val)
      else if ¬low ∧ val = 0 then (false, sub, val)
      else (true, if ¬low ∧ isHigh val then 6 else 0, val)

def jsonvInit (v : Jsonv) : Jsonv :=
  { v with depth := 0, st := .start, sub := 0, lit := 0, esc := 0, done := false }

def jsonvInitAny (v : Jsonv) : Jsonv := { jsonvInit v with st := .value }

def jsonvValueEnd (v : Jsonv) : Bool :=
  v.done || decide (v.depth = 0) && decide (v.st = .numZero ∨ v.st = .numInt ∨
    v.st = .numFrac ∨ v.st = .numExp)

def push (c : UInt8) (v : Jsonv) : Fed × Jsonv :=
  if stackSize ≤ v.depth then (.refused, v)
  else (.kept, { v with stack := Function.update v.stack v.depth c, depth := v.depth + 1 })

def valueDone (v : Jsonv) : Jsonv :=
  if v.depth = 0 then { v with st := .done, done := true } else { v with st := .after }

/-- `v->depth--; value_done(v); return true;` -/
def pop (v : Jsonv) : Fed × Jsonv := (.kept, valueDone { v with depth := v.depth - 1 })

/-- The case `S_VALUE`. -/
def feedValue (c : UInt8) (v : Jsonv) : Fed × Jsonv :=
  if isWs c then (.kept, v)
  else if c = lbrace then push objectMark { v with st := .keyOrEnd }
  else if c = lbracket then push arrayMark { v with st := .arrFirst }
  else if c = quote then (.kept, { v with st := .string, sub := 0 })
  else if c = minus then (.kept, { v with st := .numMinus })
  else if c = zero then (.kept, { v with st := .numZero })
  else if one ≤ c ∧ c ≤ 0x39 then (.kept, { v with st := .numInt })
  else if c = letterT then (.kept, { v with st := .lit, lit := 0, sub := 1 })
  else if c = letterF then (.kept, { v with st := .lit, lit := 1, sub := 1 })
  else if c = letterN then (.kept, { v with st := .lit, lit := 2, sub := 1 })
  else (.refused, v)

/-- The cases `S_KEY` and `S_STRING`. -/
def feedString (c : UInt8) (v : Jsonv) : Fed × Jsonv :=
  if v.sub = 1 then
    if shortEscape c then (.kept, { v with sub := 0 })
    else if c = letterU then (.kept, { v with sub := 2 })
    else (.refused, v)
  else if v.sub = 6 then if c ≠ backslash then (.refused, v) else (.kept, { v with sub := 7 })
  else if v.sub = 7 then if c ≠ letterU then (.refused, v) else (.kept, { v with sub := 8 })
  else if 2 ≤ v.sub then
    let (taken, sub, esc) := jsonEscapeHex v.sub v.esc c
    (if taken then .kept else .refused, { v with sub := sub, esc := esc })
  else if c = quote then
    if v.st = .key then (.kept, { v with st := .colon }) else (.kept, valueDone v)
  else if c = backslash then (.kept, { v with sub := 1 })
  else if 0x20 ≤ c then (.kept, v)
  else (.refused, v)

/-- The case `S_AFTER`. -/
def feedAfter (c : UInt8) (v : Jsonv) : Fed × Jsonv :=
  let top : UInt8 := if 0 < v.depth then v.stack (v.depth - 1) else 0
  if isWs c then (.kept, v)
  else if c = comma ∧ top = objectMark then (.kept, { v with st := .keyExpect })
  else if c = comma ∧ top = arrayMark then (.kept, { v with st := .value })
  else if c = rbrace ∧ top = objectMark then pop v
  else if c = rbracket ∧ top = arrayMark then pop v
  else (.refused, v)

/-- The case `S_LIT`. -/
def feedLiteral (c : UInt8) (v : Jsonv) : Fed × Jsonv :=
  if (LITS v.lit)[v.sub]? = some c then
    let v := { v with sub := v.sub + 1 }
    (.kept, if (LITS v.lit).length = v.sub then valueDone v else v)
  else (.refused, v)

/-- The cases of a number. -/
def feedNumber (c : UInt8) (v : Jsonv) : Fed × Jsonv :=
  let goes (st : St) : Fed × Jsonv := (.kept, { v with st := st })
  let ended : Fed × Jsonv := (.again, valueDone v)
  match v.st with
  | .numMinus =>
      if c = zero then goes .numZero
      else if one ≤ c ∧ c ≤ 0x39 then goes .numInt
      else (.refused, v)
  | .numZero =>
      if c = dot then goes .numFrac0
      else if c = letterE ∨ c = capitalE then goes .numExp0
      else ended
  | .numInt =>
      if isDigit c then (.kept, v)
      else if c = dot then goes .numFrac0
      else if c = letterE ∨ c = capitalE then goes .numExp0
      else ended
  | .numFrac0 => if isDigit c then goes .numFrac else (.refused, v)
  | .numFrac =>
      if isDigit c then (.kept, v)
      else if c = letterE ∨ c = capitalE then goes .numExp0
      else ended
  | .numExp0 =>
      if c = plus ∨ c = minus then goes .numExp1
      else if isDigit c then goes .numExp
      else (.refused, v)
  | .numExp1 => if isDigit c then goes .numExp else (.refused, v)
  | .numExp => if isDigit c then (.kept, v) else ended
  | _ => (.refused, v)

/-- `feed_byte`. -/
def feedByte (c : UInt8) (v : Jsonv) : Fed × Jsonv :=
  match v.st with
  | .start => if c = lbrace then push objectMark { v with st := .keyOrEnd } else (.refused, v)
  | .arrFirst => if c = rbracket then pop v else feedValue c v
  | .value => feedValue c v
  | .keyOrEnd =>
      if isWs c then (.kept, v)
      else if c = quote then (.kept, { v with st := .key, sub := 0 })
      else if c = rbrace then pop v
      else (.refused, v)
  | .keyExpect =>
      if isWs c then (.kept, v)
      else if c = quote then (.kept, { v with st := .key, sub := 0 })
      else (.refused, v)
  | .key => feedString c v
  | .string => feedString c v
  | .colon =>
      if isWs c then (.kept, v)
      else if c = colon then (.kept, { v with st := .value })
      else (.refused, v)
  | .after => feedAfter c v
  | .lit => feedLiteral c v
  | .done => (.refused, v)
  | _ => feedNumber c v

/-- One round of `jsonv_feed`. -/
def feedRound (c : UInt8) (v : Jsonv) : Bool × Jsonv :=
  match feedByte c v with
  | (.refused, v) => (false, v)
  | (.kept, v) => (true, v)
  | (.again, v) => (decide ((feedByte c v).1 ≠ .refused), (feedByte c v).2)

/-- `jsonv_feed`. -/
def jsonvFeed : Bytes → Jsonv → Bool × Jsonv
  | [], v => (true, v)
  | c :: s, v =>
      match feedRound c v with
      | (false, v) => (false, v)
      | (true, v) => jsonvFeed s v

/-- `jsonv_snapshot`: the stack up to `depth`, and every other field. -/
def jsonvSnapshot (dst src : Jsonv) : Jsonv :=
  let d := min src.depth stackSize
  { src with stack := fun i => if i < d then src.stack i else dst.stack i }

/-- Two structs of the caller: the one that is asked about, and the scratch. -/
structure Probe (State : Type) where
  v : State
  scratch : State

/-- `jsonv_trial`. -/
def jsonvTrial (s : Bytes) (p : Probe Jsonv) : Bool × Probe Jsonv :=
  let p := { p with scratch := jsonvSnapshot p.scratch p.v }
  let fed := jsonvFeed s p.scratch
  (fed.1, { p with scratch := fed.2 })

/-! ## `jsonv_close` -/

/-- What `json_escape_close` leaves in `sub`. -/
def subClosed (sub : Nat) : Nat := if sub ≤ 11 then 0 else sub

/-- The `if`s of `jsonv_close`, in their order: what each writes, and the state after it. -/
def closeString : StateM Jsonv Bytes := fun v =>
  let text := jsonEscapeClose v.sub v.esc ++ [quote]
  let closed := { v with sub := subClosed v.sub }
  if v.st = .key then (text, { closed with st := .colon })
  else if v.st = .string then (text, valueDone closed)
  else ([], v)

def closeColon : StateM Jsonv Bytes := fun v =>
  if v.st = .colon then ([colon], { v with st := .value }) else ([], v)

def closeKey : StateM Jsonv Bytes := fun v =>
  if v.st = .keyExpect then ([quote, underscore, quote, colon], { v with st := .value })
  else ([], v)

def closeLiteral : StateM Jsonv Bytes := fun v =>
  if v.st = .lit then
    ((LITS v.lit).drop v.sub, valueDone { v with sub := max v.sub (LITS v.lit).length })
  else ([], v)

def closeNumber : StateM Jsonv Bytes := fun v =>
  if v.st = .numMinus ∨ v.st = .numFrac0 ∨ v.st = .numExp0 ∨ v.st = .numExp1 then
    ([zero], valueDone v)
  else ([], v)

def closeWhole : StateM Jsonv Bytes := fun v =>
  if v.st = .numZero ∨ v.st = .numInt ∨ v.st = .numFrac ∨ v.st = .numExp then ([], valueDone v)
  else ([], v)

def closeValue : StateM Jsonv Bytes := fun v =>
  if v.st = .value ∨ v.st = .arrFirst then (nullText, valueDone v) else ([], v)

/-- The closing `while`, over the depth. -/
def closeContainers : Nat → Jsonv → Bytes × Jsonv
  | 0, v => ([], v)
  | depth + 1, v =>
      if v.done = false ∧ (v.st = .after ∨ v.st = .keyOrEnd) then
        let closer := if v.stack depth = objectMark then rbrace else rbracket
        let rest := closeContainers depth (valueDone { v with depth := depth })
        (closer :: rest.1, rest.2)
      else ([], v)

/-- The `if`s one after the other, and the containers. -/
def closeAll : StateM Jsonv Bytes := do
  let string ← closeString
  let colon ← closeColon
  let key ← closeKey
  let literal ← closeLiteral
  let number ← closeNumber
  let _ ← closeWhole
  let value ← closeValue
  let containers ← fun v => closeContainers v.depth v
  pure (string ++ colon ++ key ++ literal ++ number ++ value ++ containers)

/-- `jsonv_close`: `EMIT` drops what does not fit. -/
def jsonvClose (cap : Nat) (v : Jsonv) : Bytes × Jsonv :=
  if v.st = .start ∨ v.done then ([], v)
  else
    let closed := closeAll v
    (closed.1.take (cap - 1), closed.2)

end InPlace

end GridcoreRunner.Json
