import GridcoreRunner.Runs
import GridcoreRunner.Scatter

/-!
# The thread pool

One calling thread and `n_threads - 1` workers. A run publishes its job by moving on a counter
of generations; a worker that finds the counter moved does its slice and adds itself to the
count of those that are done. Both sides spin for a while and then park on a condition
variable. Every access to what they share is one step here, and the threads take their
steps in any order. How long a thread spins before it parks is left open, and a parked thread
may wake without a broadcast.
-/

namespace GridcoreRunner.Pool

set_option autoImplicit false

open Table

/-! ## What is done -/

/-- What a run asks for: `fn` with its `ctx`, and a number of items. -/
structure Job (Work : Type*) where
  work : Work
  nItems : Nat

/-- The slice of a thread. The source counts in `int`, which is the same while
`nItems + nThreads - 1` is below `2 ^ 31`. -/
def tpSlice (idx nThreads nItems : Nat) : Nat × Nat :=
  let per := (nItems + nThreads - 1) / nThreads
  let i0 := idx * per
  let i1 := i0 + per
  (if i0 > nItems then nItems else i0, if i1 > nItems then nItems else i1)

/-- A thread has come by its call of `fn`: with which job, as which thread, on which items. It has
called `fn` unless the slice is empty. -/
structure Ran (Work : Type*) where
  job : Job Work
  idx : Nat
  slice : Nat × Nat

def Ran.items {Work : Type*} (r : Ran Work) : List Nat := List.range' r.slice.1 (r.slice.2 - r.slice.1)

/-! ## Where the threads stand -/

/-- Where `tp_worker` stands: before the access or the lock it is named for. -/
inductive WorkerPc (Work : Type*) where
  | poll
  | checkStop
  | locking
  | counting
  | recheck
  | recheckStop
  | asleep
  | relock
  | uncount (g : UInt64)
  | unlock (g : UInt64)
  | take (g : UInt64)
  | read
  | work (job : Job Work)
  | add
  | notice
  | announceLock
  | announce
  | announceUnlock
  | exited

structure Worker (Work : Type*) where
  seen : UInt64
  pc : WorkerPc Work

/-- Where the calling thread stands in `tpool_run` or `tpool_destroy`. -/
inductive CallerPc (Work : Type*) where
  | idle
  | write (job : Job Work)
  | resetDone
  | resetParked
  | bump
  | look
  | wakeLock
  | wake
  | wakeUnlock
  | compute
  | watch
  | parkLock
  | mark
  | recheck
  | wait
  | asleep
  | relock
  | clear
  | leave
  | stopLock
  | stopFlag
  | stopWake
  | stopUnlock
  | join (i : Nat)
  | gone

inductive Holder where
  | caller
  | worker (i : Nat)
  deriving DecidableEq, Repr

/-- The pool. `ran` is what the threads have done for the run in flight, `finished` the runs that
have returned, each with what was done for it. Worker `i` is thread `i + 1`. -/
structure State (Work : Type*) where
  job : Job Work
  gen : UInt64
  nDone : Nat
  nSleeping : Nat
  callerParked : Bool
  stop : Bool
  mu : Option Holder
  workers : Nat → Worker Work
  caller : CallerPc Work
  ran : List (Ran Work)
  finished : List (Job Work × List (Ran Work))

inductive Event (Work : Type*) where
  /-- A worker's next step. -/
  | worker (i : Nat)
  /-- A worker has spun long enough. -/
  | workerParks (i : Nat)
  /-- A parked worker wakes by itself. -/
  | workerWakes (i : Nat)
  | tpoolRun (job : Job Work)
  | tpoolDestroy
  | caller
  | callerParks
  | callerWakes

/-! ## The steps -/

section Steps

variable {Work : Type*} (nThreads : Nat) (s : State Work)

/-- How many workers there are. -/
def target : Nat := nThreads - 1

def State.moveTo (i : Nat) (pc : WorkerPc Work) : State Work :=
  { s with workers := Function.update s.workers i { s.workers i with pc := pc } }

/-- A broadcast on `cv_work`, for one worker. -/
def roused (w : Worker Work) : Worker Work :=
  match w.pc with
  | .asleep => { w with pc := .relock }
  | _ => w

/-- A broadcast on `cv_done`, and how the caller fares. -/
def callerRoused : CallerPc Work → CallerPc Work
  | .asleep => .relock
  | pc => pc

def State.acquire (holder : Holder) (next : State Work) : Option (State Work) :=
  if s.mu = none then some { next with mu := some holder } else none

def workerStep (i : Nat) : Option (State Work) :=
  let w := s.workers i
  match w.pc with
  | .poll => some (s.moveTo i (if s.gen = w.seen then .checkStop else .take s.gen))
  | .checkStop => some (s.moveTo i (if s.stop then .exited else .poll))
  | .locking => s.acquire (.worker i) (s.moveTo i .counting)
  | .counting => some { s.moveTo i .recheck with nSleeping := s.nSleeping + 1 }
  | .recheck => some (s.moveTo i (if s.gen = w.seen then .recheckStop else .uncount s.gen))
  | .recheckStop =>
      if s.stop then some (s.moveTo i (.uncount w.seen))
      else some { s.moveTo i .asleep with mu := none }
  | .asleep => none
  | .relock => s.acquire (.worker i) (s.moveTo i .recheck)
  | .uncount g => some { s.moveTo i (.unlock g) with nSleeping := s.nSleeping - 1 }
  | .unlock g => some { s.moveTo i (.take g) with mu := none }
  | .take g =>
      if s.stop then some (s.moveTo i .exited)
      else some { s with workers := Function.update s.workers i { seen := g, pc := .read } }
  | .read => some (s.moveTo i (.work s.job))
  | .work job =>
      some { s.moveTo i .add with
        ran := s.ran ++ [⟨job, i + 1, tpSlice (i + 1) nThreads job.nItems⟩] }
  | .add =>
      some { s.moveTo i (if s.nDone + 1 = target nThreads then .notice else .poll) with
        nDone := s.nDone + 1 }
  | .notice => some (s.moveTo i (if s.callerParked then .announceLock else .poll))
  | .announceLock => s.acquire (.worker i) (s.moveTo i .announce)
  | .announce => some { s.moveTo i .announceUnlock with caller := callerRoused s.caller }
  | .announceUnlock => some { s.moveTo i .poll with mu := none }
  | .exited => none

/-- The budget is spent: `tp_worker` goes on to the lock. -/
def workerParks (i : Nat) : Option (State Work) :=
  match (s.workers i).pc with
  | .checkStop => if s.stop then none else some (s.moveTo i .locking)
  | _ => none

def workerWakes (i : Nat) : Option (State Work) :=
  match (s.workers i).pc with
  | .asleep => some (s.moveTo i .relock)
  | _ => none

/-- The run returns. -/
def State.returned : State Work :=
  { s with
    caller := .idle
    ran := []
    finished := s.finished ++ [(s.job, s.ran)] }

def tpoolRun (job : Job Work) : Option (State Work) :=
  match s.caller with
  | .idle =>
      if job.nItems = 0 then some s
      else if nThreads ≤ 1 ∨ job.nItems < 2 then
        some { s with finished := s.finished ++ [(job, [⟨job, 0, (0, job.nItems)⟩])] }
      else some { s with caller := .write job }
  | _ => none

def tpoolDestroy : Option (State Work) :=
  match s.caller with
  | .idle => some { s with caller := .stopLock }
  | _ => none

def callerStep : Option (State Work) :=
  match s.caller with
  | .idle => none
  | .write job => some { s with job := job, caller := .resetDone }
  | .resetDone => some { s with nDone := 0, caller := .resetParked }
  | .resetParked => some { s with callerParked := false, caller := .bump }
  | .bump => some { s with gen := s.gen + 1, caller := .look }
  | .look => some { s with caller := if 0 < s.nSleeping then .wakeLock else .compute }
  | .wakeLock => s.acquire .caller { s with caller := .wake }
  | .wake => some { s with workers := fun i => roused (s.workers i), caller := .wakeUnlock }
  | .wakeUnlock => some { s with mu := none, caller := .compute }
  | .compute =>
      some { s with
        ran := s.ran ++ [⟨s.job, 0, tpSlice 0 nThreads s.job.nItems⟩]
        caller := .watch }
  | .watch => if target nThreads ≤ s.nDone then some s.returned else some s
  | .parkLock => s.acquire .caller { s with caller := .mark }
  | .mark => some { s with callerParked := true, caller := .recheck }
  | .recheck => some { s with caller := if s.nDone < target nThreads then .wait else .clear }
  | .wait => some { s with mu := none, caller := .asleep }
  | .asleep => none
  | .relock => s.acquire .caller { s with caller := .recheck }
  | .clear => some { s with callerParked := false, caller := .leave }
  | .leave => some { s.returned with mu := none }
  | .stopLock => s.acquire .caller { s with caller := .stopFlag }
  | .stopFlag => some { s with stop := true, caller := .stopWake }
  | .stopWake => some { s with workers := fun i => roused (s.workers i), caller := .stopUnlock }
  | .stopUnlock => some { s with mu := none, caller := .join 0 }
  | .join i =>
      if i < target nThreads then
        match (s.workers i).pc with
        | .exited => some { s with caller := .join (i + 1) }
        | _ => none
      else some { s with caller := .gone }
  | .gone => none

/-- The budget is spent: `tpool_run` goes on to the lock. -/
def callerParks : Option (State Work) :=
  match s.caller with
  | .watch => if target nThreads ≤ s.nDone then none else some { s with caller := .parkLock }
  | _ => none

def callerWakes : Option (State Work) :=
  match s.caller with
  | .asleep => some { s with caller := .relock }
  | _ => none

def fire : Event Work → Option (State Work)
  | .worker i => if i < target nThreads then workerStep nThreads s i else none
  | .workerParks i => if i < target nThreads then workerParks s i else none
  | .workerWakes i => if i < target nThreads then workerWakes s i else none
  | .tpoolRun job => tpoolRun nThreads s job
  | .tpoolDestroy => tpoolDestroy s
  | .caller => callerStep nThreads s
  | .callerParks => callerParks nThreads s
  | .callerWakes => callerWakes s

/-- The pool as `tpool_create` leaves it. -/
def Created : Prop :=
  s.gen = 0 ∧ s.nDone = 0 ∧ s.nSleeping = 0 ∧ s.callerParked = false ∧ s.stop = false ∧
    s.mu = none ∧ (∀ i, s.workers i = ⟨0, .poll⟩) ∧ s.caller = .idle ∧ s.ran = [] ∧
    s.finished = []

end Steps

end GridcoreRunner.Pool
