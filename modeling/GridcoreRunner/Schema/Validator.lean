import GridcoreRunner.Schema.Node

/-!
# The streaming schema validator

`feed_byte` over the frame stack. A byte is refused, or it leaves a state behind and
the answer whether the frame it ended has still to hand it to its parent.
-/

namespace GridcoreRunner.Schema

set_option autoImplicit false

open GridcoreRunner.Json

/-- `str_byte`: whether the string was closed, `sub` and `esc`. -/
def strByte (c : UInt8) (sub esc : Nat) : Option (Bool × Nat × Nat) :=
  if sub = 1 then
    if shortEscape c then some (false, 0, esc)
    else if c = letterU then some (false, 2, esc)
    else none
  else if sub = 6 then if c ≠ backslash then none else some (false, 7, esc)
  else if sub = 7 then if c ≠ letterU then none else some (false, 8, esc)
  else if 2 ≤ sub then (jsonEscapeHex sub esc c).map fun (sub, esc) => (false, sub, esc)
  else if c = quote then some (true, sub, esc)
  else if c = backslash then some (false, 1, esc)
  else if 0x20 ≤ c then some (false, sub, esc)
  else none

/-! ## The stack -/

/-- The member whose value has just ended is called `tool`. -/
def atTool (props : List (Member Snode)) (f : Sframe) : Bool :=
  props[f.sub]?.any fun p => p.key == [0x74, 0x6f, 0x6f, 0x6c]

/-- `frame_done` below a finished frame: the frames that stay, or the end of the root. -/
def settle (lastEnum : Option Nat) : Snode → List Sframe → List Sframe × Bool
  | _, [] => ([], true)
  | child, f :: below =>
      let chosen : Nat := (lastEnum.map (· + 1)).getD f.disc
      match f.node with
      | .obj props =>
          let disc := if atTool props f then chosen else f.disc
          ({ f with disc := disc, phase := .objNext } :: below, false)
      | .map _ => ({ f with phase := .objNext } :: below, false)
      | .seq props ws =>
          let disc := if child.selects then chosen else f.disc
          if props.length ≤ f.idx then settle lastEnum (.seq props ws) below
          else ({ f with disc := disc, phase := .seq } :: below, false)
      | .members _ _ => ({ f with phase := .memNext, alive := [], litPos := 0, sub := 0 } :: below, false)
      | _ => ({ f with phase := .arrNext } :: below, false)

/-- `frame_done` on the frame `f`. -/
def frameDone (v : Sval) (f : Sframe) (below : List Sframe) : Sval :=
  let (stack, done) := settle v.lastEnum f.node below
  { v with stack := stack, done := v.done || done }

/-- `sizeof(v->stack) / sizeof(v->stack[0])`. -/
def stackLimit : Nat := 48

/-- `push_value` leaves room for the frame it is about to push. -/
def pushValue (v : Sval) : Option Sval :=
  if stackLimit ≤ v.stack.length then none else some { v with lastEnum := none }

/-- A byte that the frame keeps. -/
def stay (v : Sval) (f : Sframe) (below : List Sframe) : Option (Sval × Bool) :=
  some (v.setTop f below, false)

/-- A frame that ends with this byte, or in front of it. -/
def leave (v : Sval) (f : Sframe) (below : List Sframe) (again : Bool) : Option (Sval × Bool) :=
  some (frameDone v f below, again)

/-- `leading_ws_ok`: blanks are refused in front of the root value. -/
def leadingWs (v : Sval) (f : Sframe) (below : List Sframe) : Option (Sval × Bool) :=
  if below.isEmpty then none else stay v f below

/-! ## Scalars -/

/-- A running `SN_ANY`. -/
def feedAny (v : Sval) (f : Sframe) (below : List Sframe) (c : UInt8) : Option (Sval × Bool) :=
  if v.any.done then leave v f below true
  else
    match feedRound v.any c with
    | some any =>
        let v := { v with any := any }
        if any.done then leave v f below false else stay v f below
    | none => if jsonvValueEnd v.any then leave v f below true else none

/-- The case `P_LIT`: literals that this byte completes, and literals it leaves open. -/
def feedLit (v : Sval) (f : Sframe) (below : List Sframe) (c : UInt8) : Option (Sval × Bool) :=
  let lit (i : Nat) : Bytes := f.node.literals.getD i []
  let matching := f.alive.filter fun i => (lit i)[f.litPos]? == some c
  let ends (i : Nat) : Bool := (lit i).length == f.litPos + 1
  let completed := (matching.filter ends).getLast?
  let next := matching.filter fun i => !ends i
  let pending : Option Nat := if f.sub = 0 then none else some (f.sub - 1)
  let finish (i : Nat) (again : Bool) : Option (Sval × Bool) :=
    leave (if f.node.isEnum then { v with lastEnum := some i } else v) f below again
  if next.isEmpty then
    match completed, pending with
    | some i, _ => finish i false
    | none, some i => finish i true
    | none, none => none
  else
    stay v { f with alive := next, sub := (completed.map (· + 1)).getD 0, litPos := f.litPos + 1 }
      below

/-- What a pattern asks of a byte that neither closes the string nor is part of an
escape. -/
def patternAllows (pat : List PatSeg) (litPos : Nat) (c : UInt8) : Bool :=
  if c == backslash || c ≥ 128 then false
  else
    match patAtPos pat litPos with
    | .lit lit => c == lit
    | .cls ascii => ascii c
    | .end_ => false

/-- The case `P_STR`. -/
def feedStr (minItems : Nat) (maxItems : Option Nat) (pat : List PatSeg) (v : Sval) (f : Sframe)
    (below : List Sframe) (c : UInt8) : Option (Sval × Bool) :=
  let patterned := !pat.isEmpty
  if patterned && f.sub == 0 && c != quote && !patternAllows pat f.litPos c then none
  else if f.sub == 0 && c == backslash && maxItems.any fun bound => decide (bound ≤ f.litPos) then
    none
  else
    (strByte c f.sub f.esc).bind fun (closed, sub, esc) =>
      let f := { f with sub := sub, esc := esc }
      let tooLong (length : Nat) : Bool := maxItems.any fun bound => decide (bound < length)
      if closed then
        if f.litPos < minItems || patterned && decide (f.litPos < patMinLen pat) || tooLong f.litPos then
          none
        else leave v f below false
      else if sub = 0 then
        if tooLong (f.litPos + 1) then none else stay v { f with litPos := f.litPos + 1 } below
      else stay v f below

/-- The case `P_NUM` of an integer. -/
def feedInt (numMin numMax : Option ℤ) (v : Sval) (f : Sframe) (below : List Sframe)
    (c : UInt8) : Option (Sval × Bool) :=
  (integerTakeByte numMin numMax f c).bind fun taken =>
    if (f.num = .zero ∨ f.num = .int) ∧ ¬isDigit c then leave v taken below true
    else stay v taken below

/-- The case `P_NUM` of a number. -/
def feedNum (realMin realMax : Option ℚ) (v : Sval) (f : Sframe) (below : List Sframe)
    (c : UInt8) : Option (Sval × Bool) :=
  match numByte c f.num false with
  | .error complete =>
      if complete && numberInBounds v realMin realMax f then leave v f below true else none
  | .ok num => (numberPut v c).bind fun v => stay v { f with num := num } below

/-- The longest beginning of the sentinel, of `pos` bytes at most, that ends what was
seen: `sentinel[0..pos)` and then `c`. -/
def rawFallback (sentinel : Bytes) (pos : Nat) (c : UInt8) : Nat :=
  ((List.range (pos + 1)).reverse.find? fun k =>
    k == 0 || sentinel[k - 1]? == some c &&
      sentinel.take (k - 1) == (sentinel.drop (pos + 1 - k)).take (k - 1)).getD 0

/-- The case `P_RAW`. -/
def feedRaw (sentinel : Bytes) (maxItems : Option Nat) (v : Sval) (f : Sframe)
    (below : List Sframe) (c : UInt8) : Option (Sval × Bool) :=
  if sentinel[f.litPos]? = some c then
    if f.litPos + 1 = sentinel.length then leave v f below false
    else stay v { f with litPos := f.litPos + 1 } below
  else
    let kept := rawFallback sentinel f.litPos c
    let idx := f.idx + (f.litPos + 1 - kept)
    if maxItems.any fun bound => decide (bound < idx) then none
    else stay v { f with idx := idx, litPos := kept } below

/-! ## Members -/

/-- The case `P_OBJ_INKEY` of an object with named members. -/
def feedKey (props : List (Member Snode)) (v : Sval) (f : Sframe) (below : List Sframe)
    (c : UInt8) : Option (Sval × Bool) :=
  let key (i : Nat) : Bytes := (props[i]?.map Member.key).getD []
  if c = quote then
    match f.alive.find? fun i => (key i).length == f.litPos with
    | some i => stay v { f with idx := i + 1, sub := i, phase := .objColon } below
    | none => none
  else
    let next := f.alive.filter fun i => (key i)[f.litPos]? == some c
    if next.isEmpty then none else stay v { f with alive := next, litPos := f.litPos + 1 } below

/-- The same case of a map, whose keys are any strings. -/
def feedMapKey (v : Sval) (f : Sframe) (below : List Sframe) (c : UInt8) : Option (Sval × Bool) :=
  (strByte c f.sub f.esc).bind fun (closed, sub, esc) =>
    let f := { f with sub := sub, esc := esc }
    if closed then stay v { f with phase := .objColon } below
    else stay v { f with litPos := if sub = 0 then f.litPos + 1 else f.litPos } below

/-- What `P_MEM_FIRST` and `P_MEM_NEXT` make of a byte: the frame goes on matching, or a
prefix is complete, with or in front of this byte. -/
inductive MemberMatch
  | going (f : Sframe)
  | picked (which : Nat) (again : Bool)

def matchMember (props : List (Member Snode)) (sentinel : Bytes) (f : Sframe) (c : UInt8) :
    Option MemberMatch :=
  let alive := if f.alive.isEmpty then memberCandidates props f.idx else f.alive
  let lit := fun i => memberPrefix props sentinel i (f.phase == .memFirst)
  let matching := alive.filter fun i => decide (f.idx ≤ i) && (lit i)[f.litPos]? == some c
  let ends (i : Nat) : Bool := (lit i).length == f.litPos + 1
  let completed := (matching.filter ends).getLast?
  let next := matching.filter fun i => !ends i
  let pending : Option Nat := if f.sub = 0 then none else some (f.sub - 1)
  if next.isEmpty then
    match completed, pending with
    | some i, _ => some (.picked i false)
    | none, some i => some (.picked i true)
    | none, none => none
  else
    some (.going
      { f with alive := next, sub := (completed.map (· + 1)).getD 0, litPos := f.litPos + 1 })

/-- The frame of a member list whose member `which` is about to be read. -/
def memberFrame (f : Sframe) (which : Nat) : Sframe :=
  { f with idx := which + 1, sub := which, phase := .memNext, alive := [], litPos := 0 }

/-! ## Unions -/

/-- `union_start_bytes`, read at one byte: whether a value of this node may begin with it,
or that the first byte does not tell. -/
def startsWith (c : UInt8) : Snode → Option Bool
  | .str _ _ _ => some (c == quote)
  | .enum lits _ _ => some (lits.any fun lit => lit.head? == some c)
  | .obj _ => some (c == lbrace)
  | .map _ => some (c == lbrace)
  | .arr _ _ _ => some (c == lbracket)
  | .bool => some (c == letterT || c == letterF)
  | .null => some (c == letterN)
  | .num _ _ => some (c == minus || isDigit c)
  | .int _ _ => some (c == minus || isDigit c)
  | .seq props _ => firstStarts props
  | .members props sentinel =>
      some ((props.any fun p => p.key.head? == some c) || sentinel.head? == some c)
  | .raw _ _ => some true
  | .any _ => none
  | .union _ _ => none
  | .cond _ _ => none
where
  firstStarts : List Snode → Option Bool
  | [] => none
  | first :: _ => startsWith c first

/-- The `case`s of `pick_alt`: an open value takes every byte, an open object its brace. -/
def altTakes (c : UInt8) : Snode → Bool
  | .any objectRooted => !objectRooted || c == lbrace
  | .raw _ _ => true
  | n => startsWith c n == some true

/-- `pick_alt`. -/
def pickAlt (alts : List Snode) (c : UInt8) : Option Nat := alts.findIdx? (altTakes c)

/-! ## A value begins -/

mutual

/-- `feed_byte` in the phase `P_START` of a frame that holds this node. -/
def enter (c : UInt8) : Snode → Sval → Sframe → List Sframe → Option (Sval × Bool)
  | .any objectRooted, v, f, below =>
      if isWs c then leadingWs v f below
      else
        feedAny { v with any := if objectRooted then jsonvInit else jsonvInitAny }
          { f with phase := .str } below c
  | .null, v, f, below =>
      if isWs c then leadingWs v f below
      else
        (feedLit v { f with phase := .lit, litPos := 0, sub := 0, alive := [0] } below c).map
          fun (v, _) => (v, false)
  | .bool, v, f, below =>
      if isWs c then leadingWs v f below
      else
        (feedLit v { f with phase := .lit, litPos := 0, sub := 0, alive := [0, 1] } below c).map
          fun (v, _) => (v, false)
  | .enum lits _ ws, v, f, below =>
      if isWs c && !ws then leadingWs v f below
      else
        (feedLit v { f with phase := .lit, litPos := 0, sub := 0, alive := List.range lits.length }
          below c).map fun (v, _) => (v, false)
  | .num realMin _, v, f, below =>
      if isWs c then leadingWs v f below
      else if c == minus && realMin.any fun low => decide (0 ≤ low) then none
      else
        match numByte c .start false with
        | .error _ => none
        | .ok num =>
            (numberPut { v with numText := [] } c).bind fun v =>
              stay v { f with phase := .num, num := num, litPos := 0, numAbs := 0 } below
  | .int numMin numMax, v, f, below =>
      if isWs c then leadingWs v f below
      else
        (integerTakeByte numMin numMax
          { f with phase := .num, num := .start, sign := 0, numAbs := 0 } c).bind fun f =>
            stay { v with numText := [] } f below
  | .str _ _ _, v, f, below =>
      if isWs c then leadingWs v f below
      else if c ≠ quote then none
      else stay v { f with phase := .str, sub := 0, litPos := 0 } below
  | .obj _, v, f, below =>
      if isWs c then leadingWs v f below
      else if c ≠ lbrace then none
      else stay v { f with phase := .objKey1, idx := 0 } below
  | .map _, v, f, below =>
      if isWs c then leadingWs v f below
      else if c ≠ lbrace then none
      else stay v { f with phase := .objKey1, idx := 0 } below
  | .arr _ _ _, v, f, below =>
      if isWs c then leadingWs v f below
      else if c ≠ lbracket then none
      else stay v { f with phase := .arrFirst, idx := 0 } below
  | .union alts ws, v, f, below =>
      if isWs c && !ws then leadingWs v f below
      else (pickAlt alts c).bind fun i => enterNth c alts i v f below
  | .cond alts ws, v, f, below =>
      if isWs c && !ws then leadingWs v f below
      else (frameChoice f below).bind fun i => enterNth c alts i v f below
  | .seq props ws, v, f, below =>
      if isWs c && !ws then leadingWs v f below
      else if props.isEmpty then leave v f below true
      else
        let f := { f with phase := .seq, idx := 1 }
        (pushValue (v.setTop f below)).bind fun v => openNth c props 0 v (f :: below)
  | .members props sentinel, v, f, below =>
      let f := { f with phase := .memFirst, idx := 0, litPos := 0, sub := 0
                        alive := memberCandidates props 0 }
      (matchMember props sentinel f c).bind fun
        | .going f => stay v f below
        | .picked which again =>
            if which = props.length then leave v f below again
            else
              let f := memberFrame f which
              (pushValue (v.setTop f below)).bind fun v => memberNth c props which again v (f :: below)
  | .raw sentinel maxItems, v, f, below =>
      if isWs c then leadingWs v f below
      else feedRaw sentinel maxItems v { f with phase := .raw, litPos := 0 } below c

/-- The frame holds the `i`-th of these nodes instead. -/
def enterNth (c : UInt8) : List Snode → Nat → Sval → Sframe → List Sframe → Option (Sval × Bool)
  | [], _, _, _, _ => none
  | n :: _, 0, v, f, below => enter c n v { f with node := n } below
  | _ :: rest, i + 1, v, f, below => enterNth c rest i v f below

/-- A frame for the `i`-th of these nodes is pushed. -/
def openNth (c : UInt8) : List Snode → Nat → Sval → List Sframe → Option (Sval × Bool)
  | [], _, _, _ => none
  | n :: _, 0, v, below => enter c n v (.start n) below
  | _ :: rest, i + 1, v, below => openNth c rest i v below

/-- A frame for the value of the `i`-th member is pushed, and reads the byte if nothing
else has. -/
def memberNth (c : UInt8) :
    List (Member Snode) → Nat → Bool → Sval → List Sframe → Option (Sval × Bool)
  | [], _, _, _, _ => none
  | ⟨_, _, _, value⟩ :: _, 0, again, v, below =>
      if again then enter c value v (.start value) below else stay v (.start value) below
  | _ :: rest, i + 1, again, v, below => memberNth c rest i again v below

end

/-! ## A value goes on -/

def feedObj (v : Sval) (f : Sframe) (below : List Sframe) (c : UInt8) : Option (Sval × Bool) :=
  let props : List (Member Snode) := match f.node with
    | .obj props => props
    | _ => []
  let value : Option Snode := match f.node with
    | .map items => some items
    | _ => props[f.sub]?.map Member.value
  let isMap : Bool := match f.node with
    | .map _ => true
    | _ => false
  match f.phase with
  | .objInkey => if isMap then feedMapKey v f below c else feedKey props v f below c
  | .objColon =>
      if isWs c then stay v f below
      else if c ≠ colon then none
      else
        let f := { f with phase := .objNext }
        (pushValue (v.setTop f below)).bind fun v =>
          value.bind fun n => stay v (.start n) (f :: below)
  | .objNext =>
      if isWs c then stay v f below
      else if c = comma then
        if !isMap && decide (props.length ≤ f.idx) then none
        else stay v { f with phase := .objKey } below
      else if c = rbrace then
        if !isMap && !closeAllowed props f.idx then none else leave v f below false
      else none
  | phase =>
      if isWs c then stay v f below
      else if c == rbrace && phase == .objKey1 then
        if !isMap && !closeAllowed props f.idx then none else leave v f below false
      else if c ≠ quote then none
      else if isMap then stay v { f with sub := 0, litPos := 0, phase := .objInkey } below
      else if (keyCandidates props f.idx).isEmpty then none
      else
        stay v { f with alive := keyCandidates props f.idx, phase := .objInkey, litPos := 0 } below

def feedArr (items : Snode) (minItems : Nat) (maxItems : Option Nat) (v : Sval) (f : Sframe)
    (below : List Sframe) (c : UInt8) : Option (Sval × Bool) :=
  if isWs c then stay v f below
  else if f.phase = .arrFirst then
    if c = rbracket then if 0 < minItems then none else leave v f below false
    else
      let f := { f with idx := 1, phase := .arrNext }
      (pushValue (v.setTop f below)).bind fun v => enter c items v (.start items) (f :: below)
  else if c = comma then
    if maxItems.any fun bound => decide (bound ≤ f.idx) then none
    else
      let f := { f with idx := f.idx + 1 }
      (pushValue (v.setTop f below)).bind fun v => stay v (.start items) (f :: below)
  else if c = rbracket then if f.idx < minItems then none else leave v f below false
  else none

def feedSeq (props : List Snode) (v : Sval) (f : Sframe) (below : List Sframe) (c : UInt8) :
    Option (Sval × Bool) :=
  if props.length ≤ f.idx then leave v f below true
  else
    let next := { f with idx := f.idx + 1 }
    (pushValue (v.setTop next below)).bind fun v => openNth c props f.idx v (next :: below)

def feedMembers (props : List (Member Snode)) (sentinel : Bytes) (v : Sval) (f : Sframe)
    (below : List Sframe) (c : UInt8) : Option (Sval × Bool) :=
  (matchMember props sentinel f c).bind fun
    | .going f => stay v f below
    | .picked which again =>
        if which = props.length then leave v f below again
        else
          let f := memberFrame f which
          (pushValue (v.setTop f below)).bind fun v => memberNth c props which again v (f :: below)

/-- `feed_byte`. A node and a phase that it never has refuse every byte. -/
def feedByte (v : Sval) (c : UInt8) : Option (Sval × Bool) :=
  if v.done then none
  else
    match v.stack with
    | [] => none
    | f :: below =>
        match f.phase, f.node with
        | .start, n => enter c n v f below
        | _, .any _ => feedAny v f below c
        | .str, .str minItems maxItems pat => feedStr minItems maxItems pat v f below c
        | .lit, _ => feedLit v f below c
        | .num, .int numMin numMax => feedInt numMin numMax v f below c
        | .num, .num realMin realMax => feedNum realMin realMax v f below c
        | .arrFirst, .arr items minItems maxItems => feedArr items minItems maxItems v f below c
        | .arrNext, .arr items minItems maxItems => feedArr items minItems maxItems v f below c
        | .seq, .seq props _ => feedSeq props v f below c
        | .memFirst, .members props sentinel => feedMembers props sentinel v f below c
        | .memNext, .members props sentinel => feedMembers props sentinel v f below c
        | .raw, .raw sentinel maxItems => feedRaw sentinel maxItems v f below c
        | _, .obj _ => feedObj v f below c
        | _, .map _ => feedObj v f below c
        | _, _ => none

/-- `sval_ws_is_content`. -/
def svalWsIsContent (v : Sval) : Bool :=
  match v.stack with
  | [] => false
  | f :: _ =>
      match f.node with
      | .any _ => true
      | .raw _ _ => f.phase == .raw
      | .map _ => f.phase == .objInkey
      | .str _ _ _ => f.phase == .str
      | .enum _ _ _ => f.phase == .str
      | _ => false

/-- `sval_at_raw_tail`: every frame below the innermost is a sequence with no element
left. -/
def svalAtRawTail (v : Sval) : Bool :=
  match v.stack with
  | [] => false
  | f :: below =>
      let exhausted (f : Sframe) : Bool := match f.node with
        | .seq props _ => decide (props.length ≤ f.idx)
        | _ => false
      let last : Bool := match f.node with
        | .raw _ _ => f.phase == .raw
        | .seq props _ =>
            f.phase == .seq && f.idx + 1 == props.length &&
              props.getLast?.any fun
                | .raw _ _ => true
                | _ => false
        | _ => false
      !v.done && below.all exhausted && last

end GridcoreRunner.Schema
