import GridcoreRunner.Json.Mode

/-!
# Compiled schema nodes and the validator's state

`snode` keeps the fields that its kind uses. An optional bound stands for a field
with its `has_` flag, and for a length whose `-1` means that there is none. Masks of
alternatives are lists of their indices. An integer's sign is kept in a field of its
own, not in `lit_pos`, and so is the micro-state of a number, not in `sub`.
-/

namespace GridcoreRunner.Schema

set_option autoImplicit false

open GridcoreRunner.Json

/-- `pat_seg`; without `maxTail` the class repeats for ever. -/
structure PatSeg where
  literal : Bytes
  hasClass : Bool
  minTail : Nat
  maxTail : Option Nat
  ascii : UInt8 → Bool

/-- `keys[i]`, `next_keys[i]`, `req[i]` and `props[i]` of a node. -/
structure Member (Node : Type) where
  key : Bytes
  nextKey : Bytes
  req : Bool
  value : Node

inductive Snode
  | any (objectRooted : Bool)
  | null
  | bool
  | num (realMin realMax : Option ℚ)
  | int (numMin numMax : Option ℤ)
  | str (minItems : Nat) (maxItems : Option Nat) (pat : List PatSeg)
  | enum (lits : List Bytes) (selects wsSignificant : Bool)
  | obj (props : List (Member Snode))
  | map (items : Snode)
  | arr (items : Snode) (minItems : Nat) (maxItems : Option Nat)
  | union (alts : List Snode) (wsSignificant : Bool)
  | cond (alts : List Snode) (wsSignificant : Bool)
  | seq (props : List Snode) (wsSignificant : Bool)
  | raw (sentinel : Bytes) (maxItems : Option Nat)
  | members (props : List (Member Snode)) (sentinel : Bytes)

namespace Snode

def wsSignificant : Snode → Bool
  | .enum _ _ ws => ws
  | .union _ ws => ws
  | .cond _ ws => ws
  | .seq _ ws => ws
  | .members _ _ => true
  | _ => false

/-- The texts that the phase `P_LIT` matches. -/
def literals : Snode → List Bytes
  | .enum lits _ _ => lits
  | .bool => [trueText, falseText]
  | .null => [nullText]
  | _ => []

def isEnum : Snode → Bool
  | .enum _ _ _ => true
  | _ => false

/-- An enumeration that chooses the conditional behind it. -/
def selects : Snode → Bool
  | .enum _ selects _ => selects
  | _ => false

end Snode

/-! ## Frames -/

/-- The phases of a frame. -/
inductive Phase
  | start | objKey1 | objKey | objInkey | objColon | objNext | arrFirst | arrNext
  | str | lit | num | seq | raw | memFirst | memNext
deriving DecidableEq, Repr

/-- The micro-states of a number. -/
inductive NSt
  | start | minus | zero | int | frac0 | frac | exp0 | exp1 | exp
deriving DecidableEq, Repr

/-- `sframe`. -/
structure Sframe where
  node : Snode
  phase : Phase
  sub : Nat
  num : NSt
  idx : Nat
  litPos : Nat
  sign : ℤ
  disc : Nat
  esc : Nat
  alive : List Nat
  numAbs : Nat

/-- `(sframe){ .node = n, .phase = P_START }`. -/
def Sframe.start (n : Snode) : Sframe :=
  { node := n, phase := .start, sub := 0, num := .start, idx := 0, litPos := 0, sign := 0,
    disc := 0, esc := 0, alive := [], numAbs := 0 }

/-- `sval`; the innermost frame stands first. -/
structure Sval where
  stack : List Sframe
  done : Bool
  lastEnum : Option Nat
  any : Jsonv
  numText : Bytes

def svalInit (root : Snode) : Sval :=
  { stack := [.start root], done := false, lastEnum := none, any := jsonvInit, numText := [] }

/-- The top frame is replaced. -/
def Sval.setTop (v : Sval) (f : Sframe) (below : List Sframe) : Sval := { v with stack := f :: below }

/-- `frame_choice`: a conditional asks the frame that owns it. -/
def frameChoice (f : Sframe) (below : List Sframe) : Option Nat :=
  let chosen (disc : Nat) : Option Nat := if disc = 0 then none else some (disc - 1)
  match f.node with
  | .cond _ _ => below.head?.bind fun owner => chosen owner.disc
  | _ => chosen f.disc

/-- `key_candidates`: every member from `from_` on until the first required one. -/
def keyCandidates (props : List (Member Snode)) (from_ : Nat) : List Nat :=
  let optional := ((props.drop from_).takeWhile fun p => !p.req).length
  List.range' from_ (min (optional + 1) (props.length - from_))

def closeAllowed (props : List (Member Snode)) (from_ : Nat) : Bool :=
  (props.drop from_).all fun p => !p.req

def memberCandidates (props : List (Member Snode)) (from_ : Nat) : List Nat :=
  keyCandidates props from_ ++ if closeAllowed props from_ then [props.length] else []

def memberPrefix (props : List (Member Snode)) (sentinel : Bytes) (which : Nat) (first : Bool) :
    Bytes :=
  match props[which]? with
  | some p => if first then p.key else p.nextKey
  | none => sentinel

/-! ## Patterns -/

/-- `pat_at`. -/
inductive PatAt
  | lit (c : UInt8)
  | cls (ascii : UInt8 → Bool)
  | end_

/-- `pat_at_pos`: every segment but the last has a fixed length. -/
def patAtPos : List PatSeg → Nat → PatAt
  | [], _ => .end_
  | g :: rest, pos =>
      match g.literal[pos]? with
      | some c => .lit c
      | none =>
          let pos := pos - g.literal.length
          if !g.hasClass then patAtPos rest pos
          else
            match if rest.isEmpty then g.maxTail else some g.minTail with
            | none => .cls g.ascii
            | some span => if pos < span then .cls g.ascii else patAtPos rest (pos - span)

def patFillByte (pat : List PatSeg) (pos : Nat) : UInt8 :=
  match patAtPos pat pos with
  | .lit c => c
  | .cls ascii => (((List.range 128).map UInt8.ofNat).find? ascii).getD 0x20
  | .end_ => 0x20

def patMinLen (pat : List PatSeg) : Nat :=
  (pat.map fun g => g.literal.length + if g.hasClass then g.minTail else 0).sum

/-! ## Numbers -/

def safeInteger : ℤ := 9007199254740991

/-- `num_byte`: the next micro-state, or `none` with whether the number was complete and
the byte has still to be read. -/
def numByte (c : UInt8) (st : NSt) (integer : Bool) : Except Bool NSt :=
  let whole : Except Bool NSt :=
    if c = zero then .ok .zero else if one ≤ c ∧ c ≤ 0x39 then .ok .int else .error false
  let scaled : Except Bool NSt :=
    if !integer && c == dot then .ok .frac0
    else if !integer && (c == letterE || c == capitalE) then .ok .exp0
    else .error true
  match st with
  | .start => if c = minus then .ok .minus else whole
  | .minus => whole
  | .zero => scaled
  | .int => if isDigit c then .ok .int else scaled
  | .frac0 => if isDigit c then .ok .frac else .error false
  | .frac =>
      if isDigit c then .ok .frac
      else if c = letterE ∨ c = capitalE then .ok .exp0
      else .error true
  | .exp0 =>
      if c = plus ∨ c = minus then .ok .exp1
      else if isDigit c then .ok .exp
      else .error false
  | .exp1 => if isDigit c then .ok .exp else .error false
  | .exp => if isDigit c then .ok .exp else .error true

def numComplete (st : NSt) : Bool := st == .zero || st == .int || st == .frac || st == .exp

/-- `sizeof(v->num_text)`. -/
def numTextSize : Nat := 96

def numberPut (v : Sval) (c : UInt8) : Option Sval :=
  if numTextSize ≤ v.numText.length + 1 then none else some { v with numText := v.numText ++ [c] }

/-- `number_text_in_bounds`; a spelling that overflows is not finite. -/
def numberTextInBounds (realMin realMax : Option ℚ) (s : Bytes) : Bool :=
  let x := (strtod s).1
  decide (|x| < (2 : ℚ) ^ (1024 : ℕ)) && realMin.all (fun low => decide (low ≤ x)) &&
    realMax.all fun high => decide (x ≤ high)

def numberInBounds (v : Sval) (realMin realMax : Option ℚ) (f : Sframe) : Bool :=
  numComplete f.num && !v.numText.isEmpty && numberTextInBounds realMin realMax v.numText

def integerValue (f : Sframe) : Option ℤ :=
  if !numComplete f.num || f.num == .frac || f.num == .exp then none
  else if (f.numAbs : ℤ) > safeInteger then none
  else some (if f.sign < 0 then -(f.numAbs : ℤ) else f.numAbs)

def inRange (numMin numMax : Option ℤ) (x : ℤ) : Bool :=
  numMin.all (fun low => decide (low ≤ x)) && numMax.all fun high => decide (x ≤ high)

def integerInBounds (numMin numMax : Option ℤ) (f : Sframe) : Bool :=
  (integerValue f).any (inRange numMin numMax)

def rangesIntersect (lo hi wantLo wantHi : ℤ) : Bool := decide (lo ≤ wantHi) && decide (wantLo ≤ hi)

/-- The values that a prefix can become with as many more digits as `scale` has zeros. -/
def prefixRange (neg : Bool) (p : Nat) (scale : Nat) : ℤ × ℤ :=
  let low : ℤ := p * scale
  let high : ℤ := min (low + scale - 1) safeInteger
  if neg then (-high, -low) else (low, high)

/-- The `for` of `integer_prefix_viable`; the scale grows tenfold, sixteen times at most. -/
def viableFrom (neg : Bool) (p : Nat) (wantLo wantHi : ℤ) : Nat → Nat → Bool
  | 0, _ => false
  | rounds + 1, scale =>
      let (lo, hi) := prefixRange neg p scale
      if rangesIntersect lo hi wantLo wantHi then true
      else if (scale : ℤ) > safeInteger / 10 ∨ (p : ℤ) > safeInteger / (scale * 10) then false
      else viableFrom neg p wantLo wantHi rounds (scale * 10)

def wantLo (numMin : Option ℤ) : ℤ := numMin.getD (-safeInteger)
def wantHi (numMax : Option ℤ) : ℤ := numMax.getD safeInteger

def integerPrefixViable (numMin numMax : Option ℤ) (f : Sframe) : Bool :=
  if numMin.isNone && numMax.isNone then true
  else if (f.numAbs : ℤ) > safeInteger then false
  else if f.num = .zero then
    let x : ℤ := if f.sign < 0 then 0 else f.numAbs
    decide (wantLo numMin ≤ x) && decide (x ≤ wantHi numMax)
  else viableFrom (decide (f.sign < 0)) f.numAbs (wantLo numMin) (wantHi numMax) 17 1

/-- `integer_take_byte`; a byte that ends a number in its bounds leaves the frame. -/
def integerTakeByte (numMin numMax : Option ℤ) (f : Sframe) (c : UInt8) : Option Sframe :=
  match numByte c f.num true with
  | .error complete => if complete && integerInBounds numMin numMax f then some f else none
  | .ok num =>
      if f.num = .start ∧ c = minus then
        if numMin.all fun low => decide (low < 0) then some { f with num := num, sign := -1 }
        else none
      else if isDigit c then
        if (f.numAbs : ℤ) > safeInteger / 10 then none
        else
          let numAbs := f.numAbs * 10 + (c.toNat - 0x30)
          if (numAbs : ℤ) > safeInteger then none
          else
            let f := { f with num := num, numAbs := numAbs, sign := if f.sign = 0 then 1 else f.sign }
            if integerPrefixViable numMin numMax f then some f else none
      else some { f with num := num }

end GridcoreRunner.Schema
