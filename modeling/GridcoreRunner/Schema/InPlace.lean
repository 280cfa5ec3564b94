import GridcoreRunner.Json.InPlace
import GridcoreRunner.Schema.Closer

/-!
# The schema validator in its memory

`sval` as a struct: a stack with something in every slot, the spelling buffer of the
number being read, and the generic machine. The functions write where the source
writes, before a refusal too. `sval_trial` runs in a scratch struct that received the
live part of another one.
-/

namespace GridcoreRunner.Schema.InPlace

set_option autoImplicit false

open GridcoreRunner.Json GridcoreRunner.Buffer

/-- `sval`. -/
structure Sval where
  stack : Nat → Sframe
  depth : Nat
  done : Bool
  lastEnum : Option Nat
  any : Json.InPlace.Jsonv
  numText : Nat → UInt8
  numLen : Nat

/-- `sval_init`. It clears the other slots too, to frames without a node; here they keep
what the memory held. -/
def svalInit (memory : Sval) (root : Snode) : Sval :=
  { stack := Function.update memory.stack 0 (.start root), depth := 1, done := false
    lastEnum := none
    any := { stack := fun _ => 0, depth := 0, st := .start, sub := 0, lit := 0, done := false, esc := 0 }
    numText := fun _ => 0, numLen := 0 }

/-- `v->stack[v->depth - 1]`. -/
def top (v : Sval) : Sframe := v.stack (v.depth - 1)

def setTop (f : Sframe) (v : Sval) : Sval :=
  { v with stack := Function.update v.stack (v.depth - 1) f }

/-! ## The stack -/

/-- `frame_done`, when `depth` frames are left below the finished one. -/
def settle : Nat → Snode → Sval → Sval
  | 0, _, v => { v with depth := 0, done := true }
  | depth + 1, child, v =>
      let f := v.stack depth
      let chosen : Nat := (v.lastEnum.map (· + 1)).getD f.disc
      let advance (f : Sframe) : Sval :=
        { v with stack := Function.update v.stack depth f, depth := depth + 1 }
      match f.node with
      | .obj props =>
          advance { f with disc := if atTool props f then chosen else f.disc, phase := .objNext }
      | .map _ => advance { f with phase := .objNext }
      | .seq props ws =>
          let f := { f with disc := if child.selects then chosen else f.disc }
          if props.length ≤ f.idx then
            settle depth (.seq props ws) { v with stack := Function.update v.stack depth f }
          else advance { f with phase := .seq }
      | .members _ _ => advance { f with phase := .memNext, alive := [], litPos := 0, sub := 0 }
      | _ => advance { f with phase := .arrNext }

/-- `frame_done`. -/
def frameDone (v : Sval) : Sval := settle (v.depth - 1) (top v).node v

/-- `push_value`. -/
def pushValue (n : Snode) (v : Sval) : Bool × Sval :=
  if stackLimit ≤ v.depth then (false, v)
  else
    (true, { v with stack := Function.update v.stack v.depth (.start n), depth := v.depth + 1
                    lastEnum := none })

/-- A frame that ends with this byte, or in front of it. -/
def leave (again : Bool) (v : Sval) : Fed × Sval := (if again then .again else .kept, frameDone v)

/-- A frame that goes on, or that refuses the byte. -/
def stay (kept : Bool) (f : Sframe) (v : Sval) : Fed × Sval :=
  (if kept then .kept else .refused, setTop f v)

def refuse (v : Sval) : Fed × Sval := (.refused, v)

/-- `leading_ws_ok`. -/
def leadingWs (v : Sval) : Fed × Sval := (if 1 < v.depth then .kept else .refused, v)

/-- `frame_choice` of the frame in a slot. -/
def frameChoice (slot : Nat) (v : Sval) : Option Nat :=
  let chosen (disc : Nat) : Option Nat := if disc = 0 then none else some (disc - 1)
  match (v.stack slot).node with
  | .cond _ _ => if 0 < slot then chosen (v.stack (slot - 1)).disc else none
  | _ => chosen (v.stack slot).disc

/-! ## Scalars -/

/-- `str_byte`: refused, going on or closed, and `sub` and `esc` after the byte. -/
def strByte (c : UInt8) (sub esc : Nat) : Option Bool × Nat × Nat :=
  if sub = 1 then
    if shortEscape c then (some false, 0, esc)
    else if c = letterU then (some false, 2, esc)
    else (none, sub, esc)
  else if sub = 6 then if c ≠ backslash then (none, sub, esc) else (some false, 7, esc)
  else if sub = 7 then if c ≠ letterU then (none, sub, esc) else (some false, 8, esc)
  else if 2 ≤ sub then
    let taken := Json.InPlace.jsonEscapeHex sub esc c
    (if taken.1 then some false else none, taken.2)
  else if c = quote then (some true, sub, esc)
  else if c = backslash then (some false, 1, esc)
  else if 0x20 ≤ c then (some false, sub, esc)
  else (none, sub, esc)

/-- A running `SN_ANY`. -/
def feedAny (c : UInt8) (v : Sval) : Fed × Sval :=
  if v.any.done then leave true v
  else
    let fed := Json.InPlace.jsonvFeed [c] v.any
    let v := { v with any := fed.2 }
    if fed.1 then if v.any.done then leave false v else (.kept, v)
    else if Json.InPlace.jsonvValueEnd v.any then leave true v
    else refuse v

/-- The case `P_LIT`. -/
def feedLit (c : UInt8) (v : Sval) : Fed × Sval :=
  let f := top v
  let lit (i : Nat) : Bytes := f.node.literals.getD i []
  let matching := f.alive.filter fun i => (lit i)[f.litPos]? == some c
  let ends (i : Nat) : Bool := (lit i).length == f.litPos + 1
  let completed := (matching.filter ends).getLast?
  let next := matching.filter fun i => !ends i
  let pending : Option Nat := if f.sub = 0 then none else some (f.sub - 1)
  let finish (i : Nat) (again : Bool) : Fed × Sval :=
    leave again (if f.node.isEnum then { v with lastEnum := some i } else v)
  if next.isEmpty then
    match completed, pending with
    | some i, _ => finish i false
    | none, some i => finish i true
    | none, none => refuse v
  else
    stay true { f with alive := next, sub := (completed.map (· + 1)).getD 0, litPos := f.litPos + 1 } v

/-- The case `P_STR`. -/
def feedStr (minItems : Nat) (maxItems : Option Nat) (pat : List PatSeg) (c : UInt8) (v : Sval) :
    Fed × Sval :=
  let f := top v
  let patterned := !pat.isEmpty
  if patterned && f.sub == 0 && c != quote && !patternAllows pat f.litPos c then refuse v
  else if f.sub == 0 && c == backslash && maxItems.any fun bound => decide (bound ≤ f.litPos) then
    refuse v
  else
    let read := strByte c f.sub f.esc
    let f := { f with sub := read.2.1, esc := read.2.2 }
    let tooLong (length : Nat) : Bool := maxItems.any fun bound => decide (bound < length)
    match read.1 with
    | none => stay false f v
    | some true =>
        if f.litPos < minItems || patterned && decide (f.litPos < patMinLen pat) || tooLong f.litPos then
          stay false f v
        else leave false (setTop f v)
    | some false =>
        if f.sub = 0 then stay (!tooLong (f.litPos + 1)) { f with litPos := f.litPos + 1 } v
        else stay true f v

/-- `integer_take_byte`: its answer, and the frame after it. -/
def integerTakeByte (numMin numMax : Option ℤ) (f : Sframe) (c : UInt8) : Bool × Sframe :=
  match numByte c f.num true with
  | .error complete => (complete && integerInBounds numMin numMax f, f)
  | .ok num =>
      let taken := { f with num := num }
      if f.num = .start ∧ c = minus then
        (numMin.all fun low => decide (low < 0), { taken with sign := -1 })
      else if isDigit c then
        if (f.numAbs : ℤ) > safeInteger / 10 then (false, taken)
        else
          let taken := { taken with numAbs := f.numAbs * 10 + (c.toNat - 0x30) }
          if (taken.numAbs : ℤ) > safeInteger then (false, taken)
          else
            let taken := { taken with sign := if f.sign = 0 then 1 else f.sign }
            (integerPrefixViable numMin numMax taken, taken)
      else (true, taken)

/-- The case `P_NUM` of an integer. -/
def feedInt (numMin numMax : Option ℤ) (c : UInt8) (v : Sval) : Fed × Sval :=
  let f := top v
  let taken := integerTakeByte numMin numMax f c
  if !taken.1 then stay false taken.2 v
  else if (f.num = .zero ∨ f.num = .int) ∧ ¬isDigit c then leave true (setTop taken.2 v)
  else stay true taken.2 v

/-- `number_put`. -/
def numberPut (c : UInt8) (v : Sval) : Bool × Sval :=
  if numTextSize ≤ v.numLen + 1 then (false, v)
  else
    (true, { v with numText := Function.update (Function.update v.numText v.numLen c) (v.numLen + 1) 0
                    numLen := v.numLen + 1 })

/-- The buffer read as a string, up to its terminator. -/
def spelling (v : Sval) : Bytes :=
  ((List.range numTextSize).map v.numText).takeWhile fun c => c != 0

def numberInBounds (realMin realMax : Option ℚ) (f : Sframe) (v : Sval) : Bool :=
  numComplete f.num && decide (v.numLen ≠ 0) && numberTextInBounds realMin realMax (spelling v)

/-- The frame has read a byte of its number, which still has to fit in the buffer. -/
def putDigit (f : Sframe) (c : UInt8) (v : Sval) : Fed × Sval :=
  let put := numberPut c (setTop f v)
  (if put.1 then .kept else .refused, put.2)

/-- The case `P_NUM` of a number. -/
def feedNum (realMin realMax : Option ℚ) (c : UInt8) (v : Sval) : Fed × Sval :=
  let f := top v
  match numByte c f.num false with
  | .error complete =>
      if complete && numberInBounds realMin realMax f v then leave true v else refuse v
  | .ok num => putDigit { f with num := num } c v

/-- The case `P_RAW`. -/
def feedRaw (sentinel : Bytes) (maxItems : Option Nat) (c : UInt8) (v : Sval) : Fed × Sval :=
  let f := top v
  if sentinel[f.litPos]? = some c then
    if f.litPos + 1 = sentinel.length then leave false v
    else stay true { f with litPos := f.litPos + 1 } v
  else
    let kept := rawFallback sentinel f.litPos c
    let idx := f.idx + (f.litPos + 1 - kept)
    if maxItems.any fun bound => decide (bound < idx) then refuse v
    else stay true { f with idx := idx, litPos := kept } v

/-! ## Members -/

/-- The case `P_OBJ_INKEY` of an object with named members. -/
def feedKey (props : List (Member Snode)) (c : UInt8) (v : Sval) : Fed × Sval :=
  let f := top v
  let key (i : Nat) : Bytes := (props[i]?.map Member.key).getD []
  if c = quote then
    match f.alive.find? fun i => (key i).length == f.litPos with
    | some i => stay true { f with idx := i + 1, sub := i, phase := .objColon } v
    | none => refuse v
  else
    let next := f.alive.filter fun i => (key i)[f.litPos]? == some c
    if next.isEmpty then refuse v else stay true { f with alive := next, litPos := f.litPos + 1 } v

/-- The same case of a map. -/
def feedMapKey (c : UInt8) (v : Sval) : Fed × Sval :=
  let f := top v
  let read := strByte c f.sub f.esc
  let f := { f with sub := read.2.1, esc := read.2.2 }
  match read.1 with
  | none => stay false f v
  | some true => stay true { f with phase := .objColon } v
  | some false => stay true { f with litPos := if f.sub = 0 then f.litPos + 1 else f.litPos } v

/-- The frame with its candidates, which are computed before the byte is looked at. -/
def withCandidates (props : List (Member Snode)) (f : Sframe) : Sframe :=
  { f with alive := if f.alive.isEmpty then memberCandidates props f.idx else f.alive }

/-! ## A value begins -/

/-- A fresh number; the buffer is empty again. -/
def startNumber (f : Sframe) (v : Sval) : Sval :=
  setTop { f with phase := .num, num := .start, litPos := 0, sign := 0, numAbs := 0 }
    { v with numLen := 0 }

/-- A fresh literal, whose first byte never has to be read again. -/
def startLit (alive : List Nat) (c : UInt8) (v : Sval) : Fed × Sval :=
  let fed := feedLit c (setTop { top v with phase := .lit, litPos := 0, sub := 0, alive := alive } v)
  (if fed.1 = .refused then .refused else .kept, fed.2)

mutual

/-- `feed_byte` in the phase `P_START` of a frame that holds this node. -/
def enter (c : UInt8) : Snode → Sval → Fed × Sval
  | .any objectRooted, v =>
      if isWs c then leadingWs v
      else
        let any := if objectRooted then Json.InPlace.jsonvInit v.any
          else Json.InPlace.jsonvInitAny v.any
        feedAny c (setTop { top v with phase := .str } { v with any := any })
  | .null, v => if isWs c then leadingWs v else startLit [0] c v
  | .bool, v => if isWs c then leadingWs v else startLit [0, 1] c v
  | .enum lits _ ws, v =>
      if isWs c && !ws then leadingWs v else startLit (List.range lits.length) c v
  | .num realMin _, v =>
      if isWs c then leadingWs v
      else
        let v := startNumber (top v) v
        if c == minus && realMin.any fun low => decide (0 ≤ low) then refuse v
        else
          match numByte c .start false with
          | .error _ => refuse v
          | .ok num => putDigit { top v with num := num } c v
  | .int numMin numMax, v =>
      if isWs c then leadingWs v
      else
        let v := startNumber (top v) v
        let taken := integerTakeByte numMin numMax (top v) c
        stay taken.1 taken.2 v
  | .str _ _ _, v =>
      if isWs c then leadingWs v
      else if c ≠ quote then refuse v
      else stay true { top v with phase := .str, sub := 0, litPos := 0 } v
  | .obj _, v =>
      if isWs c then leadingWs v
      else if c ≠ lbrace then refuse v
      else stay true { top v with phase := .objKey1, idx := 0 } v
  | .map _, v =>
      if isWs c then leadingWs v
      else if c ≠ lbrace then refuse v
      else stay true { top v with phase := .objKey1, idx := 0 } v
  | .arr _ _ _, v =>
      if isWs c then leadingWs v
      else if c ≠ lbracket then refuse v
      else stay true { top v with phase := .arrFirst, idx := 0 } v
  | .union alts ws, v =>
      if isWs c && !ws then leadingWs v
      else
        match pickAlt alts c with
        | none => refuse v
        | some i => enterNth c alts i v
  | .cond alts ws, v =>
      if isWs c && !ws then leadingWs v
      else
        match frameChoice (v.depth - 1) v with
        | none => refuse v
        | some i => enterNth c alts i v
  | .seq props ws, v =>
      if isWs c && !ws then leadingWs v
      else if props.isEmpty then leave true v
      else openNth c props 0 (setTop { top v with phase := .seq, idx := 1 } v)
  | .members props sentinel, v =>
      let f := { top v with phase := .memFirst, idx := 0, litPos := 0, sub := 0
                            alive := memberCandidates props 0 }
      match matchMember props sentinel f c with
      | none => refuse (setTop (withCandidates props f) v)
      | some (.going f) => stay true f v
      | some (.picked which again) =>
          if which = props.length then leave again (setTop (withCandidates props f) v)
          else memberNth c props which again (setTop (memberFrame f which) v)
  | .raw sentinel maxItems, v =>
      if isWs c then leadingWs v
      else feedRaw sentinel maxItems c (setTop { top v with phase := .raw, litPos := 0 } v)

/-- The frame holds the `i`-th of these nodes instead. -/
def enterNth (c : UInt8) : List Snode → Nat → Sval → Fed × Sval
  | [], _, v => refuse v
  | n :: _, 0, v => enter c n (setTop { top v with node := n } v)
  | _ :: rest, i + 1, v => enterNth c rest i v

/-- A frame for the `i`-th of these nodes is pushed, and reads the byte. -/
def openNth (c : UInt8) : List Snode → Nat → Sval → Fed × Sval
  | [], _, v => refuse v
  | n :: _, 0, v =>
      let pushed := pushValue n v
      if pushed.1 then enter c n pushed.2 else refuse pushed.2
  | _ :: rest, i + 1, v => openNth c rest i v

/-- A frame for the value of the `i`-th member is pushed, and reads the byte if nothing
else has. -/
def memberNth (c : UInt8) : List (Member Snode) → Nat → Bool → Sval → Fed × Sval
  | [], _, _, v => refuse v
  | ⟨_, _, _, value⟩ :: _, 0, again, v =>
      let pushed := pushValue value v
      if !pushed.1 then refuse pushed.2
      else if again then enter c value pushed.2
      else (.kept, pushed.2)
  | _ :: rest, i + 1, again, v => memberNth c rest i again v

end

/-! ## A value goes on -/

/-- A frame for a value that begins with a later byte. -/
def expect (value : Option Snode) (v : Sval) : Fed × Sval :=
  match value with
  | none => refuse v
  | some n =>
      let pushed := pushValue n v
      (if pushed.1 then .kept else .refused, pushed.2)

def feedObj (c : UInt8) (v : Sval) : Fed × Sval :=
  let f := top v
  let props : List (Member Snode) := match f.node with
    | .obj props => props
    | _ => []
  let value : Option Snode := match f.node with
    | .map items => some items
    | _ => props[f.sub]?.map Member.value
  let isMap : Bool := match f.node with
    | .map _ => true
    | _ => false
  match f.phase with
  | .objInkey => if isMap then feedMapKey c v else feedKey props c v
  | .objColon =>
      if isWs c then (.kept, v)
      else if c ≠ colon then refuse v
      else expect value (setTop { f with phase := .objNext } v)
  | .objNext =>
      if isWs c then (.kept, v)
      else if c = comma then
        if !isMap && decide (props.length ≤ f.idx) then refuse v
        else stay true { f with phase := .objKey } v
      else if c = rbrace then
        if !isMap && !closeAllowed props f.idx then refuse v else leave false v
      else refuse v
  | phase =>
      if isWs c then (.kept, v)
      else if c == rbrace && phase == .objKey1 then
        if !isMap && !closeAllowed props f.idx then refuse v else leave false v
      else if c ≠ quote then refuse v
      else if isMap then stay true { f with sub := 0, litPos := 0, phase := .objInkey } v
      else
        let f := { f with alive := keyCandidates props f.idx }
        if f.alive.isEmpty then stay false f v
        else stay true { f with phase := .objInkey, litPos := 0 } v

def feedArr (items : Snode) (minItems : Nat) (maxItems : Option Nat) (c : UInt8) (v : Sval) :
    Fed × Sval :=
  let f := top v
  if isWs c then (.kept, v)
  else if f.phase = .arrFirst then
    if c = rbracket then if 0 < minItems then refuse v else leave false v
    else openNth c [items] 0 (setTop { f with idx := 1, phase := .arrNext } v)
  else if c = comma then
    if maxItems.any fun bound => decide (bound ≤ f.idx) then refuse v
    else expect (some items) (setTop { f with idx := f.idx + 1 } v)
  else if c = rbracket then if f.idx < minItems then refuse v else leave false v
  else refuse v

def feedSeq (props : List Snode) (c : UInt8) (v : Sval) : Fed × Sval :=
  let f := top v
  if props.length ≤ f.idx then leave true v
  else openNth c props f.idx (setTop { f with idx := f.idx + 1 } v)

def feedMembers (props : List (Member Snode)) (sentinel : Bytes) (c : UInt8) (v : Sval) :
    Fed × Sval :=
  let f := withCandidates props (top v)
  match matchMember props sentinel f c with
  | none => refuse (setTop f v)
  | some (.going f) => stay true f v
  | some (.picked which again) =>
      if which = props.length then leave again (setTop f v)
      else memberNth c props which again (setTop (memberFrame f which) v)

/-- `feed_byte`. A node and a phase that it never has refuse every byte. -/
def feedByte (c : UInt8) (v : Sval) : Fed × Sval :=
  if v.done then refuse v
  else
    match (top v).phase, (top v).node with
    | .start, n => enter c n v
    | _, .any _ => feedAny c v
    | .str, .str minItems maxItems pat => feedStr minItems maxItems pat c v
    | .lit, _ => feedLit c v
    | .num, .int numMin numMax => feedInt numMin numMax c v
    | .num, .num realMin realMax => feedNum realMin realMax c v
    | .arrFirst, .arr items minItems maxItems => feedArr items minItems maxItems c v
    | .arrNext, .arr items minItems maxItems => feedArr items minItems maxItems c v
    | .seq, .seq props _ => feedSeq props c v
    | .memFirst, .members props sentinel => feedMembers props sentinel c v
    | .memNext, .members props sentinel => feedMembers props sentinel c v
    | .raw, .raw sentinel maxItems => feedRaw sentinel maxItems c v
    | _, .obj _ => feedObj c v
    | _, .map _ => feedObj c v
    | _, _ => refuse v

/-- One round of `sval_feed`. -/
def feedRound (c : UInt8) (v : Sval) : Bool × Sval :=
  match feedByte c v with
  | (.refused, v) => (false, v)
  | (.kept, v) => (true, v)
  | (.again, v) => (decide ((feedByte c v).1 = .kept), (feedByte c v).2)

/-- `sval_feed`. -/
def svalFeed : Bytes → Sval → Bool × Sval
  | [], v => (true, v)
  | c :: s, v =>
      match feedRound c v with
      | (false, v) => (false, v)
      | (true, v) => svalFeed s v

/-- The copy `sval_trial` makes: the slots below `depth`, the spelling with the byte
behind it, and the live part of the generic machine. -/
def svalSnapshot (dst src : Sval) : Sval :=
  let d := min src.depth stackLimit
  { stack := fun i => if i < d then src.stack i else dst.stack i
    depth := src.depth, done := src.done, lastEnum := src.lastEnum, numLen := src.numLen
    numText := fun i => if i < src.numLen + 1 then src.numText i else dst.numText i
    any := Json.InPlace.jsonvSnapshot dst.any src.any }

/-- `sval_trial`. -/
def svalTrial (s : Bytes) (p : Json.InPlace.Probe Sval) : Bool × Json.InPlace.Probe Sval :=
  let p := { p with scratch := svalSnapshot p.scratch p.v }
  let fed := svalFeed s p.scratch
  (fed.1, { p with scratch := fed.2 })

/-! ## Questions -/

/-- `sval_ws_is_content`. -/
def svalWsIsContent (v : Sval) : Bool :=
  if v.depth = 0 then false
  else
    let f := top v
    match f.node with
    | .any _ => true
    | .raw _ _ => f.phase == .raw
    | .map _ => f.phase == .objInkey
    | .str _ _ _ => f.phase == .str
    | .enum _ _ _ => f.phase == .str
    | _ => false

/-- A sequence with no element left. -/
def exhausted (f : Sframe) : Bool :=
  match f.node with
  | .seq props _ => decide (props.length ≤ f.idx)
  | _ => false

/-- A raw value, or a sequence whose last element is one and comes next. -/
def rawLast (f : Sframe) : Bool :=
  match f.node with
  | .raw _ _ => f.phase == .raw
  | .seq props _ =>
      f.phase == .seq && f.idx + 1 == props.length &&
        props.getLast?.any fun
          | .raw _ _ => true
          | _ => false
  | _ => false

/-- `sval_at_raw_tail`. -/
def svalAtRawTail (v : Sval) : Bool :=
  !v.done && decide (0 < v.depth) && (List.range (v.depth - 1)).all (fun i => exhausted (v.stack i)) &&
    rawLast (top v)

/-! ## `sval_close` -/

/-- What a round of the loop emits for the frame in a slot, and what it does to the
generic machine. -/
def closeFrame (slot : Nat) (q : Emitq) (v : Sval) : Emitq × Sval :=
  let f := v.stack slot
  let choice := frameChoice slot v
  match f.phase, f.node with
  | .start, .any objectRooted => (emitMinChoice (.any objectRooted) 0 none q, v)
  | _, .any objectRooted =>
      let closed := Json.InPlace.jsonvClose 512 v.any
      let q := if !closed.1.isEmpty then q.put closed.1
        else if !closed.2.done then q.put (if objectRooted then [lbrace, rbrace] else nullText)
        else q
      (q, { v with any := closed.2 })
  | .start, n => (emitMinChoice n 0 choice q, v)
  | .str, .str minItems _ pat =>
      (((q.put (jsonEscapeClose f.sub f.esc)).fill (emitFill pat)
        (stringMin minItems pat - f.litPos) f.litPos).put [quote], v)
  | .lit, n =>
      match closePick f with
      | some pick => (q.put ((n.literals.getD pick []).drop f.litPos), v)
      | none => (q, v)
  | .num, .int numMin numMax => (q.put (closeInteger numMin numMax f), v)
  | .num, .num realMin realMax =>
      (q.put (closeNumber realMin realMax ((List.range v.numLen).map v.numText) f), v)
  | _, .obj props => (closeObjFrame f choice props q, v)
  | _, .map items => (closeMapFrame f choice items q, v)
  | _, .arr items minItems _ =>
      ((q.fill (fun i q =>
        emitMinChoice items 0 none (if 0 < i || f.phase == .arrNext then q.put [comma] else q))
          (minItems - f.idx) f.idx).put [rbracket], v)
  | .seq, .seq props _ => (closeSeq choice (props.drop f.idx) q, v)
  | _, .members props sentinel => (closeMembersFrame f choice props sentinel q, v)
  | .raw, .raw sentinel _ => (q.put (sentinel.drop f.litPos), v)
  | _, _ => (q, v)

/-- A literal that ends sets the choice of the frame below its slot. -/
def closeChoice (slot : Nat) (v : Sval) : Sval :=
  let f := v.stack slot
  if f.phase = .lit ∧ 0 < slot then
    let owner := v.stack (slot - 1)
    match (closePick f).bind fun pick => closeDisc f pick [owner] with
    | some disc => { v with stack := Function.update v.stack (slot - 1) { owner with disc := disc } }
    | none => v
  else v

/-- The loop of `sval_close`, over the depth. What a round writes to its own frame goes
with the frame. -/
def closeFrames : Nat → Emitq → Sval → Emitq × Sval
  | 0, q, v => (q, v)
  | depth + 1, q, v =>
      let closed := closeFrame depth q v
      closeFrames depth closed.1 { closeChoice depth closed.2 with depth := depth }

/-- `sval_close`. -/
def svalClose (cap : Nat) (v : Sval) : Bytes × Sval :=
  if v.done ∨ v.depth = 1 ∧ (v.stack 0).phase = .start then ([], v)
  else
    let closed := closeFrames v.depth { room := cap - 1, out := [] } v
    (closed.1.out, { closed.2 with done := true })

end GridcoreRunner.Schema.InPlace
