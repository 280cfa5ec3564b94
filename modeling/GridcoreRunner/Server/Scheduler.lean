import GridcoreRunner.Runs
import GridcoreRunner.Scatter
import GridcoreRunner.Engine.Speculative

/-!
# Continuous batching

Slot threads hand one forward at a time to the decode thread, which cuts a microbatch from
whatever waits. Every section under a mutex is one event, and so is every step a thread
takes on its own between two of them: the sampling step of a slot, its polls, the decode of
a microbatch. What a slot has submitted is numbered, and the microbatches cut and the rows
copied home are kept, for the statements only.
-/

namespace GridcoreRunner.Scheduler

open GridcoreRunner.Causal GridcoreRunner.Generation GridcoreRunner.Table

set_option autoImplicit false

variable {V σ κ Row Fold Logits : Type*}

/-- How many slots, how many sequences the gathering waits for at most, and whether prefill
and decode take turns on the device. -/
structure Config where
  nSlots : Nat
  batchMax : Nat
  deviceTurn : Bool

inductive SeqState where
  | off | wait | inflight | ready
  deriving Repr, DecidableEq

structure Seq (Logits : Type*) where
  state : SeqState
  tok : Nat
  pos : Nat
  logits : Option Logits
  ok : Bool

/-- One sequence of a microbatch, with the number of its submission and of its request. -/
structure Entry where
  slot : Nat
  sub : Nat
  request : Nat
  tok : Nat
  pos : Nat
  deriving Repr, DecidableEq

/-- A call of `sched_generate`: the engine and the prompt's logits, and what the
cancellation predicate will answer at its polls. -/
structure Request (V σ κ Row Fold Logits : Type*) where
  setup : Setup V σ κ Row Fold Logits
  capture : Bool
  engine : Engine V σ κ Row Fold
  logits : Logits
  maxNew : Int
  deadline : Int
  polls : List Bool

/-- Where a slot thread is. The row it steps on is the prompt's, or its own copy. -/
inductive Point (Logits : Type*) where
  | entered
  | stepping (prompt : Option Logits)
  | handed (tok pos : Nat)
  | submitting (tok pos : Nat)
  | waiting (tok pos : Nat)
  | ending
  | solo
  | soloQueued (ticket : Nat)
  | soloHolding
  | soloGiving

structure Job (V σ κ Row Fold Logits : Type*) where
  request : Request V σ κ Row Fold Logits
  number : Nat
  engine : Engine V σ κ Row Fold
  polls : List Bool
  count : Nat
  point : Point Logits

structure Slot (V σ κ Row Fold Logits : Type*) where
  job : Option (Job V σ κ Row Fold Logits)
  arrived : Nat
  submitted : Nat
  dropped : List Nat
  abandoned : List Nat
  droppedRequests : List Nat
  results : List (Request V σ κ Row Fold Logits × Engine V σ κ Row Fold × Nat)

/-- Where the decode thread is, and the microbatch it has in hand. -/
inductive Worker where
  | sleeping
  | gathering
  | cut (batch : List Entry)
  | queued (batch : List Entry) (ticket : Nat)
  | holding (batch : List Entry)
  | decoded (batch : List Entry) (ok : Bool)
  | given (batch : List Entry) (ok : Bool)
  | exited

def Worker.batch : Worker → List Entry
  | .cut batch | .queued batch _ | .holding batch | .decoded batch _ | .given batch _ => batch
  | _ => []

/-- Whether the rows of the microbatch in hand have been copied home. -/
def Worker.home : Worker → Bool
  | .decoded _ ok | .given _ ok => ok
  | _ => false

structure State (V σ κ Row Fold Logits : Type*) where
  seq : Nat → Seq Logits
  slot : Nat → Slot V σ κ Row Fold Logits
  nWait : Int
  nActive : Int
  stop : Bool
  worker : Worker
  devNext : Nat
  devServing : Nat
  prefills : List Nat
  cuts : List (List Entry)
  rows : List (Entry × Logits)

/-! ## The generation a slot runs -/

/-- The speculative walk cannot capture log probabilities. -/
def engineWantsSpec (capture : Bool) (s : Setup V σ κ Row Fold Logits) : Bool :=
  if capture then false
  else if s.dm.isSome then true
  else s.gramFf && s.c.constrained

/-- The solo loop of `engine_generate`, polled before every forward. -/
def soloLoop (s : Setup V σ κ Row Fold Logits) :
    Nat → List Bool → Engine V σ κ Row Fold → Logits → Engine V σ κ Row Fold
  | 0, _, e, _ => e
  | fuel + 1, polls, e, logits =>
      match engineGenStep s e logits with
      | (e, none) => e
      | (e, some (tok, pos)) =>
          if polls.headD false then e
          else
            let next := forwardPending s e tok pos
            soloLoop s fuel polls.tail next.1 next.2

/-- What is left of the loop; every step advances `pos`, so the context bounds it. -/
def remaining (s : Setup V σ κ Row Fold Logits) (polls : List Bool) (e : Engine V σ κ Row Fold)
    (logits : Logits) : Engine V σ κ Row Fold :=
  soloLoop s (s.m.nCtx - e.pos + 1) polls e logits

/-- `engine_gen_end` and what it returns. -/
def genEnd (s : Setup V σ κ Row Fold Logits) (e : Engine V σ κ Row Fold) :
    Engine V σ κ Row Fold × Nat :=
  (engineGenEnd s e, (engineGenEnd s e).genCount)

/-- `engine_generate` run alone. -/
def engineGenerate (r : Request V σ κ Row Fold Logits) : Engine V σ κ Row Fold × Nat :=
  if engineWantsSpec r.capture r.setup then generateSpec r.setup r.engine r.logits r.maxNew
  else genEnd r.setup (remaining r.setup r.polls (engineGenBegin r.maxNew r.engine) r.logits)

namespace State

variable (s : State V σ κ Row Fold Logits)

def setJob (i : Nat) (job : Job V σ κ Row Fold Logits) : State V σ κ Row Fold Logits :=
  { s with slot := Function.update s.slot i { s.slot i with job := some job } }

def setSeq (i : Nat) (q : Seq Logits) : State V σ κ Row Fold Logits :=
  { s with seq := Function.update s.seq i q }

/-! ## `sched_forward` -/

/-- Past its deadline and still only queued: the submission is taken back. -/
def drop (i : Nat) (job : Job V σ κ Row Fold Logits) : State V σ κ Row Fold Logits :=
  { s with
    seq := Function.update s.seq i { s.seq i with state := .off }
    nWait := s.nWait - 1
    slot := Function.update s.slot i { s.slot i with
      job := some { job with point := .ending }
      dropped := (s.slot i).submitted :: (s.slot i).dropped
      droppedRequests := job.number :: (s.slot i).droppedRequests } }

def answered (i : Nat) : Bool := decide ((s.seq i).state = .ready) && (s.seq i).ok

/-- The wait is over: the row is there, or the scheduler stops. -/
def answer (i : Nat) (job : Job V σ κ Row Fold Logits) : State V σ κ Row Fold Logits :=
  { s with
    seq := Function.update s.seq i { s.seq i with state := .off }
    slot := Function.update s.slot i { s.slot i with
      job := some { job with point := if s.answered i then .stepping none else .ending }
      abandoned :=
        if (s.seq i).state = .wait then (s.slot i).submitted :: (s.slot i).abandoned
        else (s.slot i).abandoned } }

/-- One turn of the waiting loop, the lock held: the deadline, another wait, or the result. -/
def forwardTurn (i : Nat) (job : Job V σ κ Row Fold Logits) (now : Int) :
    State V σ κ Row Fold Logits :=
  if (s.seq i).state ≠ .ready ∧ s.stop = false then
    if 0 < job.request.deadline ∧ (s.seq i).state = .wait ∧ job.request.deadline ≤ now then
      s.drop i job
    else s
  else s.answer i job

def enqueue (i : Nat) (job : Job V σ κ Row Fold Logits) (tok pos : Nat) :
    State V σ κ Row Fold Logits :=
  { s with
    seq := Function.update s.seq i { s.seq i with tok := tok, pos := pos, state := .wait }
    nWait := s.nWait + 1
    slot := Function.update s.slot i { s.slot i with
      submitted := (s.slot i).submitted + 1
      job := some { job with point := .waiting tok pos } } }

/-- The section up to the first wait. -/
def forwardEnter (i : Nat) (job : Job V σ κ Row Fold Logits) (tok pos : Nat) (now : Int) :
    State V σ κ Row Fold Logits :=
  (s.enqueue i job tok pos).forwardTurn i { job with point := .waiting tok pos } now

/-! ## `decode_worker` -/

def entryOf (i : Nat) : Entry where
  slot := i
  sub := (s.slot i).submitted
  request := ((s.slot i).job.map Job.number).getD 0
  tok := (s.seq i).tok
  pos := (s.seq i).pos

def waiting (cfg : Config) : List Nat :=
  (List.range cfg.nSlots).filter fun i => decide ((s.seq i).state = .wait)

/-- Takes every sequence that waits. -/
def cutBatch (cfg : Config) : State V σ κ Row Fold Logits :=
  let batch := (s.waiting cfg).map s.entryOf
  let s := { s with
    seq := scatter (fun _ q => { q with state := .inflight })
      ((s.waiting cfg).map fun i => (i, ())) s.seq
    nWait := s.nWait - batch.length }
  if batch.isEmpty then { s with worker := if s.stop then .exited else .sleeping }
  else { s with worker := .cut batch, cuts := batch :: s.cuts }

/-- The test of the gathering loop. -/
def gatherTurn (cfg : Config) : State V σ κ Row Fold Logits :=
  let want := if s.nActive < cfg.batchMax then s.nActive else cfg.batchMax
  if s.stop ∨ s.nWait ≥ want then s.cutBatch cfg else { s with worker := .gathering }

def workTurn (cfg : Config) : State V σ κ Row Fold Logits :=
  if s.stop then { s with worker := .exited }
  else if s.nWait = 0 then s
  else s.gatherTurn cfg

/-- `model_batch_decode` has run forwards on the caches of the sequences it was given, and if
it succeeded row `k` goes home to sequence `k`. -/
def decodeBatch (batch : List Entry) (ok : Bool) (rows : List Logits) (kvs : List (Kv Row Fold)) :
    State V σ κ Row Fold Logits :=
  let s := { s with
    slot := scatter (fun kv slot => { slot with
        job := slot.job.map fun job => { job with engine := { job.engine with kv := kv } } })
      ((batch.map Entry.slot).zip kvs) s.slot
    worker := .decoded batch ok }
  if ok then
    { s with
      seq := scatter (fun row q => { q with logits := some row })
        ((batch.map Entry.slot).zip rows) s.seq
      rows := batch.zip rows ++ s.rows }
  else s

def publish (batch : List Entry) (ok : Bool) : State V σ κ Row Fold Logits :=
  { s with
    seq := scatter (fun _ q => { q with ok := ok, state := .ready })
      (batch.map fun entry => (entry.slot, ())) s.seq
    worker := .sleeping }

end State

inductive Event (V σ κ Row Fold Logits : Type*) where
  | arrive (i : Nat) (request : Request V σ κ Row Fold Logits)
  | enter (i : Nat)
  | step (i : Nat)
  | check (i : Nat) (now : Int)
  | submit (i : Nat) (now : Int)
  | wake (i : Nat) (now : Int)
  | finish (i : Nat)
  | soloTake (i : Nat)
  | soloTurn (i : Nat)
  | soloRun (i : Nat)
  | soloGive (i : Nat)
  | work
  | gather (timedOut : Bool)
  | take
  | turn
  | decode (ok : Bool) (rows : List Logits) (kvs : List (Kv Row Fold))
  | give
  | publish
  | prefillBegin
  | prefillEnd (ticket : Nat)
  | stop

/-- What a slot thread does next. -/
def fireSlot (s : State V σ κ Row Fold Logits) (i : Nat) (job : Job V σ κ Row Fold Logits)
    (now : Int) : Event V σ κ Row Fold Logits → Option (State V σ κ Row Fold Logits)
  | .enter _ =>
      match job.point with
      | .entered =>
          if engineWantsSpec job.request.capture job.request.setup then
            some (s.setJob i { job with point := .solo })
          else
            some ({ s with nActive := s.nActive + 1 }.setJob i { job with
              engine := engineGenBegin job.request.maxNew job.engine
              point := .stepping (some job.request.logits) })
      | _ => none
  | .step _ =>
      match job.point with
      | .stepping prompt =>
          match prompt.or (s.seq i).logits with
          | none => none
          | some logits =>
              match engineGenStep job.request.setup job.engine logits with
              | (e, none) => some (s.setJob i { job with engine := e, point := .ending })
              | (e, some (tok, pos)) =>
                  some (s.setJob i { job with engine := e, point := .handed tok pos })
      | _ => none
  | .check _ _ =>
      match job.point with
      | .handed tok pos =>
          if 0 < job.request.deadline ∧ job.request.deadline ≤ now then
            some (s.setJob i { job with point := .ending })
          else if job.polls.headD false then
            some (s.setJob i { job with polls := job.polls.tail, point := .ending })
          else
            some (s.setJob i { job with polls := job.polls.tail, point := .submitting tok pos })
      | _ => none
  | .submit _ _ =>
      match job.point with
      | .submitting tok pos => some (s.forwardEnter i job tok pos now)
      | _ => none
  | .wake _ _ =>
      match job.point with
      | .waiting _ _ => some (s.forwardTurn i job now)
      | _ => none
  | .finish _ =>
      match job.point with
      | .ending =>
          let out := genEnd job.request.setup job.engine
          some { s with
            nActive := s.nActive - 1
            slot := Function.update s.slot i { s.slot i with
              job := none
              results := (job.request, out) :: (s.slot i).results } }
      | _ => none
  | _ => none

/-- A request that wants the speculative walk runs alone, and takes the device turn. -/
def fireSolo (cfg : Config) (s : State V σ κ Row Fold Logits) (i : Nat)
    (job : Job V σ κ Row Fold Logits) :
    Event V σ κ Row Fold Logits → Option (State V σ κ Row Fold Logits)
  | .soloTake _ =>
      match job.point with
      | .solo =>
          if cfg.deviceTurn then
            some ({ s with devNext := s.devNext + 1 }.setJob i
              { job with point := .soloQueued s.devNext })
          else some (s.setJob i { job with point := .soloHolding })
      | _ => none
  | .soloTurn _ =>
      match job.point with
      | .soloQueued ticket =>
          if ticket = s.devServing then some (s.setJob i { job with point := .soloHolding })
          else none
      | _ => none
  | .soloRun _ =>
      match job.point with
      | .soloHolding =>
          let out := engineGenerate { job.request with engine := job.engine, polls := job.polls }
          some (s.setJob i { job with engine := out.1, count := out.2, point := .soloGiving })
      | _ => none
  | .soloGive _ =>
      match job.point with
      | .soloGiving =>
          some { s with
            devServing := if cfg.deviceTurn then s.devServing + 1 else s.devServing
            slot := Function.update s.slot i { s.slot i with
              job := none
              results := (job.request, job.engine, job.count) :: (s.slot i).results } }
      | _ => none
  | _ => none

/-- A request on an idle slot. -/
def arrive (s : State V σ κ Row Fold Logits) (i : Nat) (request : Request V σ κ Row Fold Logits) :
    Option (State V σ κ Row Fold Logits) :=
  match (s.slot i).job with
  | some _ => none
  | none =>
      some { s with slot := Function.update s.slot i { s.slot i with
        arrived := (s.slot i).arrived + 1
        job := some {
          request := request
          number := (s.slot i).arrived
          engine := request.engine
          polls := request.polls
          count := 0
          point := .entered } } }

/-- What the decode thread does next; the turns a prefill takes on the device; the stop. -/
def fireWorker (cfg : Config) (s : State V σ κ Row Fold Logits) :
    Event V σ κ Row Fold Logits → Option (State V σ κ Row Fold Logits)
  | .work =>
      match s.worker with
      | .sleeping => some (s.workTurn cfg)
      | _ => none
  | .gather timedOut =>
      match s.worker with
      | .gathering => some (if timedOut then s.cutBatch cfg else s.gatherTurn cfg)
      | _ => none
  | .take =>
      match s.worker with
      | .cut batch =>
          if cfg.deviceTurn then
            some { s with devNext := s.devNext + 1, worker := .queued batch s.devNext }
          else some { s with worker := .holding batch }
      | _ => none
  | .turn =>
      match s.worker with
      | .queued batch ticket =>
          if ticket = s.devServing then some { s with worker := .holding batch } else none
      | _ => none
  | .decode ok rows kvs =>
      match s.worker with
      | .holding batch =>
          if rows.length = batch.length ∧ kvs.length = batch.length then
            some (s.decodeBatch batch ok rows kvs)
          else none
      | _ => none
  | .give =>
      match s.worker with
      | .decoded batch ok =>
          some { s with
            devServing := if cfg.deviceTurn then s.devServing + 1 else s.devServing
            worker := .given batch ok }
      | _ => none
  | .publish =>
      match s.worker with
      | .given batch ok => some (s.publish batch ok)
      | _ => none
  | .prefillBegin =>
      if cfg.deviceTurn then
        some { s with devNext := s.devNext + 1, prefills := s.devNext :: s.prefills }
      else some s
  | .prefillEnd ticket =>
      if cfg.deviceTurn then
        if ticket ∈ s.prefills ∧ ticket = s.devServing then
          some { s with devServing := s.devServing + 1, prefills := s.prefills.erase ticket }
        else none
      else some s
  | .stop => some { s with stop := true }
  | _ => none

/-- The slot an event belongs to, with the clock it reads. -/
def Event.slot? : Event V σ κ Row Fold Logits → Option (Nat × Int)
  | .enter i | .step i | .finish i | .soloTake i | .soloTurn i | .soloRun i | .soloGive i =>
      some (i, 0)
  | .check i now | .submit i now | .wake i now => some (i, now)
  | _ => none

def fire (cfg : Config) (s : State V σ κ Row Fold Logits) (event : Event V σ κ Row Fold Logits) :
    Option (State V σ κ Row Fold Logits) :=
  match event with
  | .arrive i request => if i < cfg.nSlots then arrive s i request else none
  | event =>
      match event.slot? with
      | none => fireWorker cfg s event
      | some (i, now) =>
          if i < cfg.nSlots then
            match (s.slot i).job with
            | none => none
            | some job => (fireSlot s i job now event).or (fireSolo cfg s i job event)
          else none

/-- A scheduler that has just started: every slot idle, nothing computed. -/
structure Starts (s : State V σ κ Row Fold Logits) : Prop where
  seq : ∀ i, (s.seq i).state = .off
  slot : ∀ i, s.slot i = {
    job := none, arrived := 0, submitted := 0, dropped := [], abandoned := [],
    droppedRequests := [], results := [] }
  nWait : s.nWait = 0
  nActive : s.nActive = 0
  stop : s.stop = false
  worker : s.worker = .sleeping
  prefills : s.prefills = []
  cuts : s.cuts = []
  rows : s.rows = []

end GridcoreRunner.Scheduler
