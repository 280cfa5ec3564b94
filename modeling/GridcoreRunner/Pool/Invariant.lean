import GridcoreRunner.Pool.Protocol

/-!
# What holds of the pool

A worker is behind the run by one generation, or busy with it, or through with it. Between two
runs all are through. Who is about to sleep has told so before it looked for news, and who
has news looks for sleepers after it has published them, so that nobody sleeps through them.
-/

namespace GridcoreRunner.Pool

set_option autoImplicit false

open Table

variable {Work : Type*}

/-! ## Where a thread stands, as far as the others care -/

namespace WorkerPc

/-- Not between the start of a job and its place in `n_done`. -/
@[grind =] def rest : WorkerPc Work → Bool
  | .read | .work _ | .add => false
  | _ => true

/-- Not between the start of a job and its end. -/
@[grind =] def past : WorkerPc Work → Bool
  | .read | .work _ => false
  | _ => true

@[grind =] def critical : WorkerPc Work → Bool
  | .counting | .recheck | .recheckStop | .uncount _ | .unlock _ | .announce
  | .announceUnlock => true
  | _ => false

/-- Counted in `n_sleeping`. -/
@[grind =] def counted : WorkerPc Work → Bool
  | .recheck | .recheckStop | .asleep | .relock | .uncount _ => true
  | _ => false

/-- The generation a worker has come upon. -/
@[grind =] def found : WorkerPc Work → Option UInt64
  | .uncount g | .unlock g | .take g => some g
  | _ => none

/-- On the way to the broadcast on `cv_done`. -/
@[grind =] def announcing : WorkerPc Work → Bool
  | .notice | .announceLock | .announce => true
  | _ => false

end WorkerPc

namespace CallerPc

/-- No worker has anything to do. -/
@[grind =] def quiet : CallerPc Work → Bool
  | .look | .wakeLock | .wake | .wakeUnlock | .compute | .watch | .parkLock | .mark | .recheck
  | .wait | .asleep | .relock => false
  | _ => true

/-- From the new generation to the return. -/
@[grind =] def inRun : CallerPc Work → Bool
  | .look | .wakeLock | .wake | .wakeUnlock | .compute | .watch | .parkLock | .mark | .recheck
  | .wait | .asleep | .relock | .clear | .leave => true
  | _ => false

/-- Behind its own slice. -/
@[grind =] def computed : CallerPc Work → Bool
  | .watch | .parkLock | .mark | .recheck | .wait | .asleep | .relock | .clear | .leave => true
  | _ => false

@[grind =] def critical : CallerPc Work → Bool
  | .wake | .wakeUnlock | .mark | .recheck | .wait | .clear | .leave | .stopFlag | .stopWake
  | .stopUnlock => true
  | _ => false

/-- Before the lock that the broadcast on `cv_work` takes. -/
@[grind =] def ahead : CallerPc Work → Bool
  | .look | .wakeLock => true
  | _ => false

/-- Before the broadcast on `cv_work`. -/
@[grind =] def waking : CallerPc Work → Bool
  | .look | .wakeLock | .wake => true
  | _ => false

/-- Between the stop flag and its broadcast. -/
@[grind =] def stopping : CallerPc Work → Bool
  | .stopWake => true
  | _ => false

@[grind =] def stopped : CallerPc Work → Bool
  | .stopWake | .stopUnlock | .join _ | .gone => true
  | _ => false

/-- The caller has set `caller_parked`, and not yet cleared it. -/
@[grind =] def parked : CallerPc Work → Bool
  | .recheck | .wait | .asleep | .relock => true
  | _ => false

@[grind =] def sleeps : CallerPc Work → Bool
  | .wait | .asleep => true
  | _ => false

/-- `n_done` has been reset for the run to come. -/
@[grind =] def reset : CallerPc Work → Bool
  | .resetParked | .bump => true
  | _ => false

end CallerPc

/-! ## The invariant -/

/-- What a worker's place in the protocol depends on. -/
structure View (Work : Type*) where
  gen : UInt64
  stop : Bool
  job : Job Work
  mu : Option Holder
  ran : List (Ran Work)
  quiet : Bool
  inRun : Bool
  ahead : Bool
  waking : Bool
  stopping : Bool

def State.view (s : State Work) : View Work where
  gen := s.gen
  stop := s.stop
  job := s.job
  mu := s.mu
  ran := s.ran
  quiet := s.caller.quiet
  inRun := s.caller.inRun
  ahead := s.caller.ahead
  waking := s.caller.waking
  stopping := s.caller.stopping

structure WorkerOk (v : View Work) (i : Nat) (w : Worker Work) : Prop where
  level : w.seen = v.gen ∨ w.seen + 1 = v.gen ∧ w.pc.rest = true ∧ v.quiet = false
  quiet : v.quiet = true → w.pc.rest = true
  found : ∀ g, w.pc.found = some g → g = v.gen ∧ w.seen + 1 = v.gen ∨ g = w.seen ∧ v.stop = true
  working : ∀ job, w.pc = .work job → job = v.job
  held : v.mu = some (.worker i) ↔ w.pc.critical = true
  goes : w.pc = .recheckStop → w.seen = v.gen ∨ v.ahead = true
  sleeps : w.pc = .asleep →
    (w.seen = v.gen ∨ v.waking = true) ∧ (v.stop = true → v.stopping = true)
  exits : w.pc = .exited → v.stop = true
  ran : (v.ran.map Ran.idx).count (i + 1) =
    if v.inRun = true ∧ w.seen = v.gen ∧ w.pc.past = true then 1 else 0

/-- Through with the generation. -/
def through (gen : UInt64) (w : Worker Work) : Bool := decide (w.seen = gen) && w.pc.rest

/-- A run is complete: what was done for it was done with its own job, and every item is in one
thread's slice, once. -/
def Complete (run : Job Work × List (Ran Work)) : Prop :=
  (∀ r ∈ run.2, r.job = run.1) ∧ (run.2.flatMap Ran.items).Perm (List.range run.1.nItems)

structure Inv (nThreads : Nat) (s : State Work) : Prop where
  workers : ∀ i < target nThreads, WorkerOk s.view i (s.workers i)
  done : s.caller.quiet = false → s.nDone = count (through s.gen) (target nThreads) s.workers
  sleeping : s.nSleeping = count (fun w => w.pc.counted) (target nThreads) s.workers
  held : s.mu = some .caller ↔ s.caller.critical = true
  parked : s.caller.parked = true → s.callerParked = true
  reset : s.caller.reset = true → s.nDone = 0
  announced : s.caller.sleeps = true → s.nDone = target nThreads →
    ∃ i < target nThreads, (s.workers i).pc.announcing = true
  stop : s.stop = s.caller.stopped
  idle : s.caller.inRun = false → s.ran = []
  ranJob : ∀ r ∈ s.ran, r.job = s.job ∧ r.idx < nThreads ∧
    r.slice = tpSlice r.idx nThreads s.job.nItems
  ranCaller : (s.ran.map Ran.idx).count 0 = if s.caller.computed = true then 1 else 0
  finished : ∀ run ∈ s.finished, Complete run
  joined : ∀ i < target nThreads,
    s.caller = .gone ∨ (∃ k, s.caller = .join k ∧ i < k) → (s.workers i).pc = .exited

end GridcoreRunner.Pool
