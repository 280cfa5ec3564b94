import GridcoreRunner.Decimal
import Mathlib.Data.List.DropRight

/-!
# Request framing

`validate_request_authority` and `parse_request_framing`. Both walk the lines between
`first_header` and `header_end` and differ in what a line does, so the walk is one definition.
Pointers into the header buffer are offsets; a search for the end of a line stops at the first NUL.
-/

namespace GridcoreRunner.Http

set_option autoImplicit false

open Decimal (isDigit)

abbrev Bytes := List UInt8

def cr : UInt8 := 0x0d

def lf : UInt8 := 0x0a

def colon : UInt8 := 0x3a

def lbracket : UInt8 := 0x5b

def rbracket : UInt8 := 0x5d

/-- `Host` -/
def host : Bytes := [0x48, 0x6f, 0x73, 0x74]

/-- `Origin` -/
def origin : Bytes := [0x4f, 0x72, 0x69, 0x67, 0x69, 0x6e]

/-- `Content-Length` -/
def contentLength : Bytes :=
  [0x43, 0x6f, 0x6e, 0x74, 0x65, 0x6e, 0x74, 0x2d, 0x4c, 0x65, 0x6e, 0x67, 0x74, 0x68]

/-- `Transfer-Encoding` -/
def transferEncoding : Bytes :=
  [0x54, 0x72, 0x61, 0x6e, 0x73, 0x66, 0x65, 0x72, 0x2d, 0x45, 0x6e, 0x63, 0x6f, 0x64, 0x69, 0x6e,
    0x67]

/-- `http://` -/
def httpScheme : Bytes := [0x68, 0x74, 0x74, 0x70, 0x3a, 0x2f, 0x2f]

/-- `https://` -/
def httpsScheme : Bytes := [0x68, 0x74, 0x74, 0x70, 0x73, 0x3a, 0x2f, 0x2f]

/-- `localhost` -/
def localhost : Bytes := [0x6c, 0x6f, 0x63, 0x61, 0x6c, 0x68, 0x6f, 0x73, 0x74]

/-- `127.0.0.1` -/
def loopback4 : Bytes := [0x31, 0x32, 0x37, 0x2e, 0x30, 0x2e, 0x30, 0x2e, 0x31]

/-- `[::1]` -/
def loopback6 : Bytes := [0x5b, 0x3a, 0x3a, 0x31, 0x5d]

def lower (c : UInt8) : UInt8 := if 0x41 ≤ c ∧ c ≤ 0x5a then c + 32 else c

/-- `ci_ncmp`. Behind the end of a list stands a NUL. -/
def ciNcmp : Bytes → Bytes → Nat → Int
  | _, _, 0 => 0
  | a, b, n + 1 =>
      let ca := lower (a.headD 0)
      let cb := lower (b.headD 0)
      if ca ≠ cb then (ca.toNat : Int) - cb.toNat
      else if ca = 0 then 0
      else ciNcmp a.tail b.tail n

/-- The place of a byte in a piece of memory. -/
def memchr (c : UInt8) (s : Bytes) : Option Nat := s.findIdx? (· == c)

/-- `strstr(s, "\r\n")`. -/
def findCrlf : Bytes → Option Nat
  | [] => none
  | c :: s =>
      if c = 0 then none
      else if c = cr ∧ s.head? = some lf then some 0
      else (findCrlf s).map (· + 1)

/-- `strstr(hdr, "\r\n\r\n")`, the callers' end of a header block. -/
def findHead : Bytes → Option Nat
  | [] => none
  | c :: s =>
      if c = 0 then none
      else if [cr, lf, cr, lf] <+: c :: s then some 0
      else (findHead s).map (· + 1)

def blank (c : UInt8) : Bool := c == 0x20 || c == 0x09

def trim (s : Bytes) : Bytes := (s.dropWhile blank).rdropWhile blank

/-! ## Authorities -/

/-- The host in front, and the text of a port. -/
def splitAuthority (s : Bytes) : Option (Bytes × Option Bytes) :=
  if s.head? = some lbracket then
    (memchr rbracket s).bind fun close =>
      match s.drop (close + 1) with
      | [] => some (s.take (close + 1), none)
      | c :: port => if c ≠ colon then none else some (s.take (close + 1), some port)
  else
    match memchr colon s with
    | none => some (s, none)
    | some n => some (s.take n, some (s.drop (n + 1)))

def loopbackHost (name : Bytes) : Bool :=
  (name.length == 9 && ciNcmp name localhost 9 == 0) || name == loopback4 || name == loopback6

/-- The digits of a port; five of them do not wrap an `unsigned`. -/
def portLoop : Nat → Bytes → Option Nat
  | value, [] => some value
  | value, c :: port =>
      if isDigit c then portLoop (value * 10 + (c.toNat - 48)) port else none

def portFine (port : Bytes) : Bool :=
  if port.length = 0 ∨ 5 < port.length then false
  else
    match portLoop 0 port with
    | none => false
    | some value => 1 ≤ value && value ≤ 65535

def localAuthority (text : Bytes) : Bool :=
  match splitAuthority (trim text) with
  | none => false
  | some (name, port) =>
      if ¬loopbackHost name then false
      else
        match port with
        | none => true
        | some port => portFine port

/-! ## Lines -/

/-- The walk over the lines of a block that ends at `room`. A line that reads past the end of the
block refuses the request, and so does `step` where it has no answer. -/
def eachLine {σ : Type} (step : σ → Bytes → Option σ) : Nat → Nat → Bytes → σ → Option σ
  | 0, _, _, state => some state
  | fuel + 1, room, s, state =>
      if room = 0 then some state
      else
        match findCrlf s with
        | none => none
        | some n =>
            if room < n then none
            else (step state (s.take n)).bind (eachLine step fuel (room - (n + 2)) (s.drop (n + 2)))

def headerLines {σ : Type} (step : σ → Bytes → Option σ) (hdr : Bytes)
    (firstHeader headerEnd : Nat) (state : σ) : Option σ :=
  eachLine step (headerEnd - firstHeader) (headerEnd - firstHeader) (hdr.drop firstHeader) state

/-- A field's name is compared as a whole. -/
def named (name line : Bytes) (n : Nat) : Bool :=
  n == name.length && ciNcmp line name name.length == 0

structure Authority where
  hosts : Nat
  origins : Nat

/-- How long the scheme of an origin is. -/
def schemeLength (value : Bytes) : Nat :=
  if 7 ≤ value.length ∧ ciNcmp value httpScheme 7 = 0 then 7
  else if 8 ≤ value.length ∧ ciNcmp value httpsScheme 8 = 0 then 8
  else 0

def originFine (text : Bytes) : Bool :=
  let value := trim text
  let n := schemeLength value
  n ≠ 0 && localAuthority (value.drop n)

def authorityLine (state : Authority) (line : Bytes) : Option Authority :=
  match memchr colon line with
  | none => some state
  | some n =>
      if named host line n then
        if state.hosts + 1 ≠ 1 ∨ ¬localAuthority (line.drop (n + 1)) then none
        else some { state with hosts := state.hosts + 1 }
      else if named origin line n then
        if state.origins + 1 ≠ 1 then none
        else if ¬originFine (line.drop (n + 1)) then none
        else some { state with origins := state.origins + 1 }
      else some state

def validateRequestAuthority (hdr : Bytes) (firstHeader headerEnd : Nat) : Bool :=
  match headerLines authorityLine hdr firstHeader headerEnd ⟨0, 0⟩ with
  | none => false
  | some state => state.hosts == 1

structure Framing where
  sawLength : Bool
  contentLength : Nat

/-- The digits of a length, into a `size_t`; what they stop at is left. -/
def lengthLoop : Nat → Bytes → Option (Nat × Bytes)
  | value, [] => some (value, [])
  | value, c :: s =>
      if isDigit c then
        if value > (2 ^ 64 - 1 - (c.toNat - 48)) / 10 then none
        else lengthLoop ((value * 10 + (c.toNat - 48)) % 2 ^ 64) s
      else some (value, c :: s)

def lengthValue (text : Bytes) : Option Nat :=
  let digits := text.dropWhile blank
  (lengthLoop 0 digits).bind fun read =>
    if read.2.length = digits.length then none
    else if read.2.dropWhile blank ≠ [] then none
    else some read.1

def framingLine (state : Framing) (line : Bytes) : Option Framing :=
  match memchr colon line with
  | none => some state
  | some n =>
      if named transferEncoding line n then none
      else if named contentLength line n then
        if state.sawLength then none
        else (lengthValue (line.drop (n + 1))).map fun value => ⟨true, value⟩
      else some state

/-- What `parse_request_framing` stores, where it accepts. -/
def parseRequestFraming (hdr : Bytes) (firstHeader headerEnd : Nat) : Option Nat :=
  (headerLines framingLine hdr firstHeader headerEnd ⟨false, 0⟩).map (·.contentLength)

end GridcoreRunner.Http
