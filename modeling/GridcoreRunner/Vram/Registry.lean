import GridcoreRunner.Decimal

/-!
# The device-memory registry

`vramreg.c`: the registry file of one device, and the two transactions on it. A
transaction reads the whole file, drops the entries of owners that are gone,
edits the entries and writes the file back; the file lock makes it one step.
-/

namespace GridcoreRunner.Vram

set_option autoImplicit false

abbrev Bytes := List UInt8

abbrev regMaxEntries : Nat := 256
abbrev regLineMax : Nat := 1024

abbrev tab : UInt8 := 9
abbrev newline : UInt8 := 10

/-- `P`, `C` and `W`. -/
inductive EntryState
  | pending
  | committed
  | waiting
  deriving DecidableEq

structure RegEntry where
  pid : Int64
  seq : Int64
  procstart : UInt64
  since : UInt64
  state : EntryState
  bytes : UInt64
  model : Bytes
  priority : Int32
  deriving DecidableEq

/-! ## The file -/

/-- `strtol`, which stops at the ends of a `long`. -/
def strtol (text : Bytes) : Int64 :=
  Int64.ofInt (max (-2 ^ 63) (min (2 ^ 63 - 1) (Decimal.toInt text)))

/-- `strtoull`: a minus sign negates, a value out of range becomes the largest. -/
def strtoull (text : Bytes) : UInt64 :=
  let (negative, n) := Decimal.scan text
  if 2 ^ 64 ≤ n then UInt64.ofNat (2 ^ 64 - 1)
  else if negative then -UInt64.ofNat n
  else UInt64.ofNat n

/-- The fields between tabs, as many as asked for at most. -/
def fields : Nat → Bytes → List Bytes
  | 0, _ => []
  | more + 1, text =>
      text.takeWhile (· != tab) ::
        match text.dropWhile (· != tab) with
        | [] => []
        | _ :: rest => fields more rest

def stateOf (field : Bytes) : EntryState :=
  if field.head? = some 67 then .committed else if field.head? = some 87 then .waiting else .pending

/-- An entry, if its line has a process id. -/
def readEntry (pid seq procstart since state bytes model : Bytes) (priority : Int32) :
    Option RegEntry :=
  if 0 < strtol pid then
    some { pid := strtol pid, seq := strtol seq, procstart := strtoull procstart,
           since := strtoull since, state := stateOf state, bytes := strtoull bytes,
           model := model.take 255, priority }
  else none

/-- Seven fields are an entry from before priorities. -/
def parseLine (line : Bytes) : Option RegEntry :=
  if line = [] ∨ regLineMax ≤ line.length ∨ line.head? = some 35 then none
  else match fields 8 line with
    | [pid, seq, procstart, since, state, bytes, model] =>
        readEntry pid seq procstart since state bytes model 0
    | [pid, seq, procstart, since, state, bytes, model, priority] =>
        readEntry pid seq procstart since state bytes model (strtol priority).toInt32
    | _ => none

/-- Each round reads one line. -/
def parseLoop : Nat → Nat → Bytes → List RegEntry
  | 0, _, _ => []
  | rounds + 1, room, text =>
      if text = [] ∨ room = 0 then []
      else
        let after := (text.dropWhile (· != newline)).tail
        match parseLine (text.takeWhile (· != newline)) with
        | some entry => entry :: parseLoop rounds (room - 1) after
        | none => parseLoop rounds room after

/-- A C string ends at its first NUL. -/
def cString (text : Bytes) : Bytes := text.takeWhile (· != 0)

def parse (text : Bytes) : List RegEntry :=
  parseLoop (text.length + 1) regMaxEntries (cString text)

def stateChar : EntryState → UInt8
  | .pending => 80
  | .committed => 67
  | .waiting => 87

def entryLine (e : RegEntry) : Bytes :=
  Decimal.ofInt e.pid.toInt ++ tab :: Decimal.ofInt e.seq.toInt ++
    tab :: Decimal.ofNat e.procstart.toNat ++ tab :: Decimal.ofNat e.since.toNat ++
    tab :: stateChar e.state :: tab :: Decimal.ofNat e.bytes.toNat ++
    tab :: e.model ++ tab :: Decimal.ofInt e.priority.toInt

def serialiseLoop (cap : Nat) : Nat → List RegEntry → Bytes
  | _, [] => []
  | off, e :: rest =>
      if off + regLineMax < cap then
        entryLine e ++ newline :: serialiseLoop cap (off + (entryLine e).length + 1) rest
      else []

def serialise (entries : List RegEntry) : Bytes :=
  serialiseLoop ((entries.length + 1) * regLineMax) 0 entries

/-! ## Owners -/

/-- What the platform reports of processes, and the clock. -/
structure Host where
  alive : Int64 → Bool
  startTime : Int64 → Option UInt64
  now : UInt64

/-- The owner of the entry's process id started at another time. -/
def reused (host : Host) (e : RegEntry) : Bool :=
  e.procstart != 0 && (host.startTime e.pid).any (· != e.procstart)

/-- Pending or waiting for an hour, with no start time to tell the owner by. -/
def stale (host : Host) (e : RegEntry) : Bool :=
  e.procstart == 0 && (e.state == .pending || e.state == .waiting) &&
    (e.since < host.now && 3600 < host.now - e.since)

def kept (host : Host) (e : RegEntry) : Bool :=
  host.alive e.pid && !reused host e && !stale host e

def reap (host : Host) (entries : List RegEntry) : List RegEntry := entries.filter (kept host)

/-! ## Claims -/

/-- The inputs of `claim_ctx`. -/
structure Claim where
  model : Bytes
  need : UInt64
  priority : Int32
  waiting : Bool
  pid : Int64
  seq : Int64
  procstart : UInt64
  deriving DecidableEq

/-- `vram_status`. -/
structure VramStatus where
  holders : Nat
  heldBytes : UInt64
  available : UInt64

/-- The model's path as it fits in an entry, without tabs and line ends. -/
def modelField (model : Bytes) : Bytes :=
  ((cString model).take 255).map fun c => if c = tab ∨ c = newline then 32 else c

def Claim.entry (c : Claim) (now : UInt64) (state : EntryState) : RegEntry :=
  { pid := c.pid, seq := c.seq, procstart := c.procstart, since := now, state, bytes := c.need,
    model := modelField c.model, priority := c.priority }

/-- The claim's own waiter marker. -/
def Claim.marks (c : Claim) (e : RegEntry) : Bool :=
  e.state == .waiting && e.pid == c.pid && e.seq == c.seq

/-- The entries a claim is judged by. -/
def Claim.others (c : Claim) (entries : List RegEntry) : List RegEntry :=
  if c.waiting then entries.filter (fun e => !c.marks e) else entries

def sumBytes (entries : List RegEntry) : UInt64 := (entries.map RegEntry.bytes).foldr (· + ·) 0

def pendingOf (entries : List RegEntry) : List RegEntry :=
  entries.filter fun e => e.state == .pending

def available (free : UInt64) (entries : List RegEntry) : UInt64 :=
  let pending := sumBytes (pendingOf entries)
  if pending < free then free - pending else 0

/-- Among waiters, one with a higher priority goes first if what it asks for fits. -/
def Claim.outranked (c : Claim) (avail : UInt64) (entries : List RegEntry) : Bool :=
  c.waiting && entries.any fun e =>
    e.state == .waiting && decide (c.priority < e.priority) && decide (e.bytes ≤ avail)

def Claim.admits (c : Claim) (free : UInt64) (entries : List RegEntry) : Bool :=
  decide (c.need ≤ available free entries) && !c.outranked (available free entries) entries

def Claim.status (c : Claim) (free : UInt64) (entries : List RegEntry) : VramStatus :=
  let held := entries.filter fun e => e.state != .waiting && e.pid != c.pid
  { holders := held.length, heldBytes := sumBytes held, available := available free entries }

/-- An entry is added where the table has room. -/
def record (entries : List RegEntry) (e : RegEntry) : List RegEntry :=
  if entries.length < regMaxEntries then entries ++ [e] else entries

/-- The entries a claim leaves: it is let in, or it may leave a marker. -/
def Claim.edit (c : Claim) (now free : UInt64) (entries : List RegEntry) : List RegEntry :=
  if c.admits free entries then record entries (c.entry now .pending)
  else if c.waiting then record entries (c.entry now .waiting)
  else entries

structure Verdict where
  admitted : Bool
  status : VramStatus

/-- The file `claim_rmw` writes, and what it reports. -/
def claimRmw (host : Host) (c : Claim) (free : UInt64) (text : Bytes) : Bytes × Verdict :=
  let entries := c.others (reap host (parse text))
  (serialise (c.edit host.now free entries),
    { admitted := c.admits free entries, status := c.status free entries })

/-! ## Commits and releases -/

/-- `edit_ctx`: no size means that the entry goes. -/
structure Edit where
  pid : Int64
  seq : Int64
  commit : Option UInt64

def Edit.mine (x : Edit) (e : RegEntry) : Bool := e.pid == x.pid && e.seq == x.seq

def Edit.entries (x : Edit) (entries : List RegEntry) : List RegEntry :=
  match x.commit with
  | none => entries.filter fun e => !x.mine e
  | some bytes =>
      entries.map fun e => if x.mine e then { e with state := .committed, bytes } else e

def editRmw (host : Host) (x : Edit) (text : Bytes) : Bytes :=
  serialise (x.entries (reap host (parse text)))

end GridcoreRunner.Vram
