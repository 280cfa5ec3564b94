import GridcoreRunner.Json.Keyset
import GridcoreRunner.Outcome

/-!
# The parser with its cursor

`json_parse` as it walks over the text: the cursor is a position, every byte is read from
the text at a position, and a name is looked up in the hash set of its object. A read at or
past the end is wrong, and so is a loop that goes on past its rounds. The parser over what
is left of the text is what this one computes, and it never goes wrong.
-/

namespace GridcoreRunner.Json

set_option autoImplicit false

open Outcome

namespace Cursor

/-- `*p` -/
def byteAt (s : Bytes) (p : Nat) : Outcome UInt8 :=
  match s[p]? with
  | none => .wrong
  | some c => .done c

/-- `memcpy` and `memcmp` out of the text. -/
def bytesAt (s : Bytes) (p n : Nat) : Outcome Bytes :=
  if p + n ≤ s.length then .done ((s.drop p).take n) else .wrong

/-- `p < c->end && test(*p)` -/
def sees (s : Bytes) (p : Nat) (test : UInt8 → Bool) : Outcome Bool :=
  if p < s.length then (byteAt s p).map test else .done false

/-- `while (p < c->end && test(*p)) p++;` -/
def skipLoop (s : Bytes) (test : UInt8 → Bool) : Nat → Nat → Outcome Nat
  | 0, _ => .wrong
  | rounds + 1, p =>
      (sees s p test).bind fun more => if more then skipLoop s test rounds (p + 1) else .done p

/-- A loop over the text ends after at most one round for each byte that is left and a last
one. -/
def roundsAt (s : Bytes) (p : Nat) : Nat := s.length - p + 1

def skipWs (s : Bytes) (p : Nat) : Outcome Nat := skipLoop s isWs (roundsAt s p) p

def hexLoop (s : Bytes) : Nat → Nat → Nat → Outcome (Option Nat)
  | 0, _, v => .done (some v)
  | n + 1, p, v =>
      (byteAt s p).bind fun c =>
        match hexDigit c with
        | none => .done none
        | some d => hexLoop s n (p + 1) (v * 16 + d)

/-- `hex4`; `none` is `-1`. -/
def hex4 (s : Bytes) (p : Nat) : Outcome (Option Nat) := hexLoop s 4 p 0

/-- `for (k = 1; k < len; k++)` in `utf8_seq`: whether all are continuation bytes. -/
def continuationLoop (s : Bytes) : Nat → Nat → Outcome Bool
  | 0, _ => .done true
  | n + 1, p =>
      (byteAt s p).bind fun x =>
        if x &&& 0xC0 != 0x80 then .done false else continuationLoop s n (p + 1)

def utf8Seq (s : Bytes) (p : Nat) : Outcome Nat :=
  (byteAt s p).bind fun c =>
    let len := if c < 0x80 then 1 else if c &&& 0xE0 = 0xC0 then 2
      else if c &&& 0xF0 = 0xE0 then 3 else if c &&& 0xF8 = 0xF0 then 4 else 0
    if len = 0 ∨ s.length < p + len then .done 0
    else (continuationLoop s (len - 1) (p + 1)).bind fun whole =>
      if !whole then .done 0
      else (if len > 1 then byteAt s (p + 1) else .done 0).bind fun c1 =>
        if len = 2 ∧ c < 0xC2 then .done 0
        else if len = 3 ∧ c = 0xE0 ∧ c1 < 0xA0 then .done 0
        else if len = 3 ∧ c = 0xED ∧ c1 ≥ 0xA0 then .done 0
        else if len = 4 ∧ c = 0xF0 ∧ c1 < 0x90 then .done 0
        else if len = 4 ∧ (c > 0xF4 ∨ c = 0xF4 ∧ c1 ≥ 0x90) then .done 0
        else .done len

/-- The `\u` case of `parse_string`, past the `u`. -/
def unicodeEscape (s : Bytes) (p : Nat) : Outcome (Nat × Nat) :=
  if p + 4 > s.length then .refused
  else (hex4 s p).bind fun
    | none => .refused
    | some cp =>
        if cp = 0 then .refused
        else if isHigh cp then
          if p + 4 + 6 > s.length then .refused
          else (byteAt s (p + 4)).bind fun back =>
            if back ≠ backslash then .refused
            else (byteAt s (p + 5)).bind fun u =>
              if u ≠ letterU then .refused
              else (hex4 s (p + 6)).bind fun
                | none => .refused
                | some lo => if isLow lo then .done (joinPair cp lo, p + 10) else .refused
        else if isLow cp then .refused
        else .done (cp, p + 4)

/-- The loop of `parse_string`. -/
def stringLoop (s : Bytes) : Nat → Nat → Bytes → Outcome (Bytes × Nat)
  | 0, _, _ => .wrong
  | rounds + 1, p, out =>
      if ¬p < s.length then .refused
      else (byteAt s p).bind fun ch =>
        if ch = quote then .done (out, p + 1)
        else if ch = backslash then
          if ¬p + 1 < s.length then .refused
          else (byteAt s (p + 1)).bind fun e =>
            if e = letterU then
              (unicodeEscape s (p + 2)).bind fun (cp, p) =>
                stringLoop s rounds p (out ++ u8Emit cp)
            else
              match unescape e with
              | none => .refused
              | some b => stringLoop s rounds (p + 2) (out ++ [b])
        else if ch < 0x20 then .refused
        else if ch < 0x80 then stringLoop s rounds (p + 1) (out ++ [ch])
        else (utf8Seq s p).bind fun len =>
          if len = 0 then .refused
          else (bytesAt s p len).bind fun sequence =>
            stringLoop s rounds (p + len) (out ++ sequence)

def parseString (s : Bytes) (p : Nat) : Outcome (Bytes × Nat) :=
  (sees s p (· == quote)).bind fun opens =>
    if opens then stringLoop s (roundsAt s (p + 1)) (p + 1) [] else .refused

/-- A digit, and all that follow it. -/
def skipDigits (s : Bytes) (p : Nat) : Outcome Nat :=
  (sees s p isDigit).bind fun digit =>
    if digit then skipLoop s isDigit (roundsAt s (p + 1)) (p + 1) else .refused

def skipWhole (s : Bytes) (p : Nat) : Outcome Nat :=
  if p ≥ s.length then .refused
  else (byteAt s p).bind fun c =>
    if c = zero then
      (sees s (p + 1) isDigit).bind fun digit => if digit then .refused else .done (p + 1)
    else skipDigits s p

def skipFraction (s : Bytes) (p : Nat) : Outcome Nat :=
  (sees s p (· == dot)).bind fun point => if point then skipDigits s (p + 1) else .done p

def skipExponent (s : Bytes) (p : Nat) : Outcome Nat :=
  (sees s p fun c => c == letterE || c == capitalE).bind fun marker =>
    if marker then
      (sees s (p + 1) fun c => c == plus || c == minus).bind fun sign =>
        skipDigits s (if sign then p + 2 else p + 1)
    else .done p

/-- `parse_number`; the spelling is copied out before `strtod` reads it. -/
def parseNumber (s : Bytes) (start : Nat) : Outcome (Jv × Nat) :=
  (sees s start (· == minus)).bind fun sign =>
    (skipWhole s (if sign then start + 1 else start)).bind fun p =>
      (skipFraction s p).bind fun p =>
        (skipExponent s p).bind fun p =>
          (bytesAt s start (p - start)).bind fun text =>
            if inRange text then .done (.num (strtod text).1, p) else .refused

/-- A member's name and colon; the name enters the hash set and the keys. -/
def parseKey (s : Bytes) (p : Nat) (set : Keyset) (keys : List Bytes) :
    Outcome ((Keyset × List Bytes) × Nat) :=
  (skipWs s p).bind fun p =>
    (parseString s p).bind fun (key, p) =>
      match keysetInsert set key with
      | none => .wrong
      | some (false, _) => .refused
      | some (true, set) =>
          (skipWs s p).bind fun p =>
            (sees s p (· == colon)).bind fun colons =>
              if colons then .done ((set, keys ++ [key]), p + 1) else .refused

def parseLabel (s : Bytes) (lid : Lid) (p : Nat) (set : Keyset) (keys : List Bytes) :
    Outcome ((Keyset × List Bytes) × Nat) :=
  match lid with
  | .brace => parseKey s p set keys
  | .bracket => .done ((set, keys), p)

/-- The `for` of `parse_container`; `value` is `parse_value` one level down. -/
def containerLoop (value : Nat → Outcome (Jv × Nat)) (s : Bytes) (lid : Lid) :
    Nat → Nat → Keyset → List Bytes → List Jv → Outcome (Jv × Nat)
  | 0, _, _, _, _ => .wrong
  | rounds + 1, p, set, keys, items =>
      (parseLabel s lid p set keys).bind fun ((set, keys), p) =>
        (value p).bind fun (item, p) =>
          (skipWs s p).bind fun p =>
            (sees s p (· == comma)).bind fun more =>
              if more then containerLoop value s lid rounds (p + 1) set keys (items ++ [item])
              else (sees s p (· == lid.closer)).bind fun closes =>
                if closes then .done (lid.jv keys (items ++ [item]), p + 1) else .refused

/-- `parse_container`, past the opening byte. -/
def parseContainer (value : Nat → Outcome (Jv × Nat)) (s : Bytes) (lid : Lid) (p : Nat) :
    Outcome (Jv × Nat) :=
  (skipWs s p).bind fun p =>
    (sees s p (· == lid.closer)).bind fun closes =>
      if closes then .done (lid.jv [] [], p + 1)
      else containerLoop value s lid (roundsAt s p) p Keyset.empty [] []

/-- `ch == first && c->end - c->p >= n && !memcmp(c->p, text, n)` -/
def parseLiteral (s : Bytes) (p : Nat) (text : Bytes) : Outcome Bool :=
  (sees s p fun c => text.head? == some c).bind fun first =>
    if first ∧ s.length - p ≥ text.length then
      (bytesAt s p text.length).map fun bytes => bytes == text
    else .done false

/-- `parse_value`; `room` is `maxDepth - depth`. -/
def parseValue (s : Bytes) : Nat → Nat → Outcome (Jv × Nat)
  | 0, _ => .refused
  | room + 1, p =>
      (skipWs s p).bind fun p =>
        if ¬p < s.length then .refused
        else (byteAt s p).bind fun ch =>
          if ch = lbrace then parseContainer (parseValue s room) s .brace (p + 1)
          else if ch = lbracket then parseContainer (parseValue s room) s .bracket (p + 1)
          else if ch = quote then (parseString s p).map fun (text, p) => (.str text, p)
          else (parseLiteral s p trueText).bind fun isTrue =>
            if isTrue then .done (.bool true, p + 4)
            else (parseLiteral s p falseText).bind fun isFalse =>
              if isFalse then .done (.bool false, p + 5)
              else (parseLiteral s p nullText).bind fun isNull =>
                if isNull then .done (.null, p + 4)
                else if ch = minus ∨ isDigit ch then parseNumber s p
                else .refused

def jsonParse (s : Bytes) : Outcome Jv :=
  (parseValue s maxDepth 0).bind fun (v, p) =>
    (skipWs s p).bind fun p => if p ≠ s.length then .refused else .done v

end Cursor

end GridcoreRunner.Json
