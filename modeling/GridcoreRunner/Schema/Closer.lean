import GridcoreRunner.Decimal
import GridcoreRunner.Schema.Validator
import GridcoreRunner.Sink

/-!
# The forced completion of a schema document

`sval_close` and what it calls. `emitq` is a sink whose room is the buffer without
the byte for the terminator.
-/

namespace GridcoreRunner.Schema

set_option autoImplicit false

open GridcoreRunner.Json GridcoreRunner.Buffer

/-- `emitq`; `eq_put` is `Sink.put` and `eq_full` is `Sink.full`. -/
abbrev Emitq := Sink UInt8

/-! ## Numbers -/

/-- The seventeen digits of `%.17g` as one number, and the exponent of the first. -/
def digits17 (x : ℚ) : Nat × ℤ :=
  let top := Int.log 10 x
  let digits := (roundTo 1 (x / (10 : ℚ) ^ (top - 16))).num.toNat
  if digits = 10 ^ 17 then (10 ^ 16, top + 1) else (digits, top)

/-- Trailing zeros are dropped, and a point that nothing follows. -/
def fraction (digits : Bytes) : Bytes :=
  let kept := (digits.reverse.dropWhile (· == zero)).reverse
  if kept.isEmpty then [] else dot :: kept

/-- `%.17g` of a positive double. -/
def positive17g (x : ℚ) : Bytes :=
  let (digits, top) := digits17 x
  let text := Decimal.ofNat digits
  if -4 ≤ top ∧ top < 17 then
    if 0 ≤ top then text.take (top.toNat + 1) ++ fraction (text.drop (top.toNat + 1))
    else zero :: fraction (List.replicate (-top - 1).toNat zero ++ text)
  else
    let power := Decimal.ofNat top.natAbs
    text.take 1 ++ fraction (text.drop 1) ++ [letterE, if top < 0 then minus else plus] ++
      List.replicate (2 - power.length) zero ++ power

/-- `%.17g`. -/
def text17g (x : ℚ) : Bytes :=
  if x = 0 then [zero] else if x < 0 then minus :: positive17g (-x) else positive17g x

/-- Zero, or the bound next to it. -/
def numberFill (realMin realMax : Option ℚ) : ℚ :=
  let low := realMin.elim 0 fun low => if 0 < low then low else 0
  realMax.elim low fun high => if high < low then high else low

def integerMinimalValue (numMin numMax : Option ℤ) : ℤ :=
  if numMin.all (fun low => decide (low ≤ 0)) && numMax.all fun high => decide (0 ≤ high) then 0
  else
    match numMin with
    | some low => if 0 < low then low else numMax.getD 0
    | none => numMax.getD 0

/-- The `for` of `close_integer`. -/
def closeIntegerFrom (neg : Bool) (p : Nat) (lowest highest : ℤ) : Nat → Nat → Nat → Bytes
  | 0, _, _ => []
  | rounds + 1, digits, scale =>
      if (p : ℤ) > safeInteger / scale then []
      else
        let (lo, hi) := prefixRange neg p scale
        if rangesIntersect lo hi lowest highest then
          let target := min (if lo < lowest then lowest else lo) hi
          let suffix := Decimal.ofNat (target.natAbs - p * scale)
          List.replicate (digits - suffix.length) zero ++ suffix
        else if (scale : ℤ) > safeInteger / 10 then []
        else closeIntegerFrom neg p lowest highest rounds (digits + 1) (scale * 10)

/-- `close_integer`. -/
def closeInteger (numMin numMax : Option ℤ) (f : Sframe) : Bytes :=
  if integerInBounds numMin numMax f then []
  else
    closeIntegerFrom (decide (f.sign < 0)) f.numAbs (wantLo numMin) (wantHi numMax) 18 1 10

/-- The spellings with an exponent, the smallest first and up before down. -/
def scaledSpellings (spell : Bytes) : List Bytes :=
  (List.range' 1 330).flatMap fun mag =>
    [spell ++ letterE :: Decimal.ofNat mag, spell ++ letterE :: minus :: Decimal.ofNat mag]

/-- `close_number`. -/
def closeNumber (realMin realMax : Option ℚ) (numText : Bytes) (f : Sframe) : Bytes :=
  if numText.isEmpty then text17g (numberFill realMin realMax)
  else
    let spell := numText ++ if numComplete f.num then [] else [zero]
    let scalable := f.num != .exp0 && f.num != .exp1 && f.num != .exp
    let fits (cand : Bytes) : Bool :=
      decide (cand.length < numTextSize) && numberTextInBounds realMin realMax cand
    if numberTextInBounds realMin realMax spell || !scalable then spell.drop numText.length
    else (((scaledSpellings spell).find? fits).getD spell).drop numText.length

/-! ## The smallest value of a node -/

/-- `emit_min_choice` counts this far down. -/
def emitDepth : Nat := 24

/-- The spaces, or the bytes of the pattern, that a string still needs. -/
def emitFill (pat : List PatSeg) (index : Nat) (q : Emitq) : Emitq :=
  q.put [if pat.isEmpty then 0x20 else patFillByte pat index]

def stringMin (minItems : Nat) (pat : List PatSeg) : Nat :=
  if pat.isEmpty then minItems else max minItems (patMinLen pat)

def condChoice (choice : Option Nat) (alts : Nat) : Nat :=
  match choice with
  | some i => if i < alts then i else 0
  | none => 0

def Snode.isNull : Snode → Bool
  | .null => true
  | _ => false

mutual

/-- `emit_min_choice`. -/
def emitMinChoice (n : Snode) (depth : Nat) (choice : Option Nat) (q : Emitq) : Emitq :=
  if emitDepth < depth then q.put nullText
  else
    match n with
    | .any objectRooted => q.put (if objectRooted then [lbrace, rbrace] else nullText)
    | .null => q.put nullText
    | .bool => q.put falseText
    | .num realMin realMax => q.put (text17g (numberFill realMin realMax))
    | .int numMin numMax => q.put (Decimal.ofInt (integerMinimalValue numMin numMax))
    | .str minItems _ pat =>
        ((q.put [quote]).fill (emitFill pat) (stringMin minItems pat) 0).put [quote]
    | .enum lits _ _ => q.put (lits.headD [])
    | .obj props => (emitRequired props true depth (q.put [lbrace])).put [rbrace]
    | .map _ => q.put [lbrace, rbrace]
    | .arr items minItems _ =>
        ((q.put [lbracket]).fill (fun i q =>
          emitMinChoice items (depth + 1) choice (if i = 0 then q else q.put [comma]))
            minItems 0).put [rbracket]
    | .union alts _ =>
        if alts.any Snode.isNull then q.put nullText else emitNth alts 0 (depth + 1) choice q
    | .cond alts _ => emitNth alts (condChoice choice alts.length) (depth + 1) choice q
    | .seq props _ => emitSeq props depth choice q
    | .members props sentinel => (emitMembers props true depth choice q).put sentinel
    | .raw sentinel _ => q.put sentinel
termination_by structural n

def emitNth (alts : List Snode) (i : Nat) (depth : Nat) (choice : Option Nat) (q : Emitq) : Emitq :=
  match alts, i with
  | [], _ => q
  | n :: _, 0 => emitMinChoice n depth choice q
  | _ :: rest, i + 1 => emitNth rest i depth choice q
termination_by structural alts

/-- The required members of an object, which begins with its own alternative. -/
def emitRequired (props : List (Member Snode)) (first : Bool) (depth : Nat) (q : Emitq) : Emitq :=
  match props with
  | [] => q
  | ⟨key, _, req, value⟩ :: rest =>
      if !req then emitRequired rest first depth q
      else
        emitRequired rest false depth
          (emitMinChoice value (depth + 1) (some 0)
            (q.put ((if first then [] else [comma]) ++ quote :: key ++ [quote, colon])))
termination_by structural props

/-- An element that chooses makes what follows take the first alternative. -/
def emitSeq (props : List Snode) (depth : Nat) (choice : Option Nat) (q : Emitq) : Emitq :=
  match props with
  | [] => q
  | n :: rest =>
      emitSeq rest depth (if n.selects then some 0 else choice)
        (emitMinChoice n (depth + 1) choice q)
termination_by structural props

def emitMembers (props : List (Member Snode)) (first : Bool) (depth : Nat) (choice : Option Nat)
    (q : Emitq) : Emitq :=
  match props with
  | [] => q
  | ⟨key, nextKey, req, value⟩ :: rest =>
      if !req then emitMembers rest first depth choice q
      else
        emitMembers rest false depth choice
          (emitMinChoice value (depth + 1) choice (q.put (if first then key else nextKey)))
termination_by structural props

end

/-! ## Open frames -/

/-- A member of an object with its smallest value. -/
def emitNamed (p : Member Snode) (choice : Option Nat) (q : Emitq) : Emitq :=
  emitMinChoice p.value 0 choice (q.put (quote :: p.key ++ [quote, colon]))

def closeRequired (choice : Option Nat) : List (Member Snode) → Bool → Emitq → Emitq
  | [], _, q => q
  | p :: rest, needComma, q =>
      if !p.req then closeRequired choice rest needComma q
      else
        closeRequired choice rest true
          (emitNamed p choice (if needComma then q.put [comma] else q))

/-- `close_obj`. -/
def closeObj (props : List (Member Snode)) (from_ : Nat) (needComma forceOne : Bool)
    (choice : Option Nat) (q : Emitq) : Emitq :=
  let rest := props.drop from_
  let q := closeRequired choice rest needComma q
  let q := match forceOne && !(rest.any fun p => p.req), rest with
    | true, p :: _ => emitNamed p choice q
    | _, _ => q
  q.put [rbrace]

/-- The members that `close_members` emits. -/
def closeMemberList (choice : Option Nat) : List (Member Snode) → Bool → Emitq → Emitq
  | [], _, q => q
  | p :: rest, first, q =>
      if !p.req then closeMemberList choice rest first q
      else
        closeMemberList choice rest false
          (emitMinChoice p.value 0 choice (q.put (if first then p.key else p.nextKey)))

/-- `close_members`. -/
def closeMembers (props : List (Member Snode)) (sentinel : Bytes) (from_ : Nat) (first : Bool)
    (choice : Option Nat) (q : Emitq) : Emitq :=
  (closeMemberList choice (props.drop from_) first q).put sentinel

/-- The elements of a sequence that are left. -/
def closeSeq (choice : Option Nat) : List Snode → Emitq → Emitq
  | [], q => q
  | n :: rest, q => if q.full then q else closeSeq choice rest (emitMinChoice n 0 choice q)

/-- The literal a frame goes for. -/
def closePick (f : Sframe) : Option Nat :=
  if f.node.isEnum && f.sub != 0 then some (f.sub - 1) else f.alive.head?

/-- The first literal of a mask, for a frame between members. -/
def memberPick (f : Sframe) : Option Nat :=
  if f.sub ≠ 0 then some (f.sub - 1) else f.alive.find? fun i => decide (f.idx ≤ i)

/-- The choice that the end of a discriminator leaves to the frame that owns it. -/
def closeDisc (f : Sframe) (pick : Nat) (below : List Sframe) : Option Nat :=
  match f.node, below with
  | .enum _ selects _, owner :: _ =>
      match owner.node with
      | .obj props => if atTool props owner then some (pick + 1) else none
      | .seq _ _ => if selects then some (pick + 1) else none
      | _ => none
  | _, _ => none

def closeObjFrame (f : Sframe) (choice : Option Nat) (props : List (Member Snode)) (q : Emitq) :
    Emitq :=
  match f.phase with
  | .objKey1 => closeObj props f.idx false false choice q
  | .objKey => closeObj props f.idx false true choice q
  | .objInkey =>
      match f.alive.head? with
      | none => closeObj props f.idx true false choice q
      | some i =>
          let q := match props[i]? with
            | some p => emitMinChoice p.value 0 choice (q.put (p.key.drop f.litPos ++ [quote, colon]))
            | none => q
          closeObj props (i + 1) true false choice q
  | .objColon =>
      let q := match props[f.sub]? with
        | some p => emitMinChoice p.value 0 choice (q.put [colon])
        | none => q.put [colon]
      closeObj props f.idx true false choice q
  | .objNext => closeObj props f.idx true false choice q
  | _ => q

def closeMapFrame (f : Sframe) (choice : Option Nat) (items : Snode) (q : Emitq) : Emitq :=
  match f.phase with
  | .objKey1 => q.put [rbrace]
  | .objKey => (emitMinChoice items 0 choice (q.put [quote, quote, colon])).put [rbrace]
  | .objInkey =>
      (emitMinChoice items 0 choice
        (q.put (jsonEscapeClose f.sub f.esc ++ [quote, colon]))).put [rbrace]
  | .objColon => (emitMinChoice items 0 choice (q.put [colon])).put [rbrace]
  | .objNext => q.put [rbrace]
  | _ => q

def closeMembersFrame (f : Sframe) (choice : Option Nat) (props : List (Member Snode))
    (sentinel : Bytes) (q : Emitq) : Emitq :=
  let first := f.phase == .memFirst
  if f.litPos = 0 then closeMembers props sentinel f.idx first choice q
  else
    match memberPick f with
    | none => q
    | some pick =>
        let q := q.put ((memberPrefix props sentinel pick first).drop f.litPos)
        match props[pick]? with
        | none => q
        | some p =>
            closeMembers props sentinel (pick + 1) false choice (emitMinChoice p.value 0 choice q)

/-- One round of the loop of `sval_close`. -/
def closeFrame (v : Sval) (f : Sframe) (below : List Sframe) (q : Emitq) : Emitq :=
  let choice := frameChoice f below
  match f.phase, f.node with
  | .start, .any objectRooted => emitMinChoice (.any objectRooted) 0 none q
  | _, .any objectRooted =>
      let tail := jsonvClose v.any 512
      if !tail.isEmpty then q.put tail
      else if !v.any.done then q.put (if objectRooted then [lbrace, rbrace] else nullText)
      else q
  | .start, n => emitMinChoice n 0 choice q
  | .str, .str minItems _ pat =>
      ((q.put (jsonEscapeClose f.sub f.esc)).fill (emitFill pat)
        (stringMin minItems pat - f.litPos) f.litPos).put [quote]
  | .lit, n =>
      match closePick f with
      | some pick => q.put ((n.literals.getD pick []).drop f.litPos)
      | none => q
  | .num, .int numMin numMax => q.put (closeInteger numMin numMax f)
  | .num, .num realMin realMax => q.put (closeNumber realMin realMax v.numText f)
  | _, .obj props => closeObjFrame f choice props q
  | _, .map items => closeMapFrame f choice items q
  | _, .arr items minItems _ =>
      (q.fill (fun i q =>
        emitMinChoice items 0 none (if 0 < i || f.phase == .arrNext then q.put [comma] else q))
          (minItems - f.idx) f.idx).put [rbracket]
  | .seq, .seq props _ => closeSeq choice (props.drop f.idx) q
  | _, .members props sentinel => closeMembersFrame f choice props sentinel q
  | .raw, .raw sentinel _ => q.put (sentinel.drop f.litPos)
  | _, _ => q

/-- The loop of `sval_close`; a literal that ends may set the choice of the next frame. -/
def closeFrames (v : Sval) : Option Nat → List Sframe → Emitq → Emitq
  | _, [], q => q
  | disc, f :: below, q =>
      let f := { f with disc := disc.getD f.disc }
      let next := if f.phase = .lit then (closePick f).bind fun pick => closeDisc f pick below
        else none
      closeFrames v next below (closeFrame v f below q)

/-- `sval_close`: nothing is written for a root value that never began. -/
def svalClose (v : Sval) (cap : Nat) : Bytes :=
  let unopened : Bool := match v.stack with
    | [f] => f.phase == .start
    | _ => false
  if v.done || unopened then []
  else (closeFrames v none v.stack { room := cap - 1, out := [] }).out

end GridcoreRunner.Schema
