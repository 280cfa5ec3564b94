import GridcoreRunner.Pool.Workers
import Mathlib.Data.List.Perm.Basic
import Mathlib.Data.List.Count

/-!
# The caller's steps

Where the caller's step does not change what a worker's place depends on, only the lock and
its own flags are at stake. The other steps begin a run, look for sleepers, end the run, and
stop the pool.
-/

namespace GridcoreRunner.Pool

set_option autoImplicit false

open Table

variable {Work : Type*} {nThreads : Nat} {s : State Work}

/-- A caller that is neither joining nor gone has joined nobody. -/
theorem not_joined {pc : CallerPc Work} (notGone : pc ≠ .gone) (notJoin : ∀ k, pc ≠ .join k)
    (i : Nat) : ¬ (pc = .gone ∨ ∃ k, pc = .join k ∧ i < k) := by
  intro joined
  cases joined with
  | inl gone => exact notGone gone
  | inr joins =>
      obtain ⟨k, same, _⟩ := joins
      exact notJoin k same

/-- All that a worker's place, and the account of the run, depend on. -/
def CallerPc.phase (pc : CallerPc Work) :
    Bool × Bool × Bool × Bool × Bool × Bool × Bool × Bool :=
  (pc.quiet, pc.inRun, pc.computed, pc.ahead, pc.waking, pc.stopping, pc.stopped, pc.reset)

/-- A step within one phase. -/
theorem Inv.strolls (inv : Inv nThreads s) {p : CallerPc Work} {u : Option Holder}
    {f : Bool} (same : p.phase = s.caller.phase)
    (lock : ∀ i, u = some (.worker i) ↔ s.mu = some (.worker i))
    (held : u = some .caller ↔ p.critical = true)
    (flag : p.parked = true → f = true)
    (announced : p.sleeps = true → s.nDone = target nThreads →
      ∃ i < target nThreads, (s.workers i).pc.announcing = true)
    (joined : ∀ i < target nThreads, p = .gone ∨ (∃ k, p = .join k ∧ i < k) →
      (s.workers i).pc = .exited) :
    Inv nThreads { s with caller := p, mu := u, callerParked := f } := by
  unfold CallerPc.phase at same
  simp only [Prod.mk.injEq] at same
  obtain ⟨quiet, inRun, computed, ahead, waking, stopping, stopped, reset⟩ := same
  constructor
  · intro i inside
    have ok := (inv.workers i inside).lock (lock i)
    unfold State.view at ok ⊢
    simp only [quiet, inRun, ahead, waking, stopping]
    exact ok
  · intro running
    exact inv.done (quiet.symm.trans running)
  · exact inv.sleeping
  · exact held
  · exact flag
  · intro at'
    exact inv.reset (reset.symm.trans at')
  · exact announced
  · exact inv.stop.trans stopped.symm
  · intro out
    exact inv.idle (inRun.symm.trans out)
  · exact inv.ranJob
  · rw [computed]
    exact inv.ranCaller
  · exact inv.finished
  · exact joined

/-- Taking the lock is none of a worker's business. -/
theorem lock_taken (free : s.mu = none) (i : Nat) :
    some Holder.caller = some (.worker i) ↔ s.mu = some (.worker i) := by
  rw [free]
  constructor
  · intro same
    injection same with same
    cases same
  · intro none'
    cases none'

theorem lock_given (mine : s.mu = some .caller) (i : Nat) :
    (none : Option Holder) = some (.worker i) ↔ s.mu = some (.worker i) := by
  rw [mine]
  constructor
  · intro none'
    cases none'
  · intro same
    injection same with same
    cases same

/-- The caller keeps its lock, or keeps without it. -/
theorem Inv.keeps_lock (inv : Inv nThreads s) {pc : CallerPc Work}
    (same : s.caller.critical = pc.critical) : s.mu = some .caller ↔ pc.critical = true := by
  rw [← same]
  exact inv.held

theorem Inv.caller_roused (inv : Inv nThreads s) :
    Inv nThreads { s with caller := callerRoused s.caller } := by
  cases at' : s.caller with
  | asleep =>
      apply inv.strolls (u := s.mu) (f := s.callerParked)
      · rw [at']
        rfl
      · intro i
        exact Iff.rfl
      · apply inv.keeps_lock
        rw [at']
        rfl
      · intro _
        apply inv.parked
        rw [at']
        rfl
      · intro asleep
        cases asleep
      · intro i _ joined
        exact absurd joined (not_joined (by intro same; cases same) (by intro k same; cases same) i)
  | _ =>
      have still : s = { s with caller := callerRoused s.caller } := by
        rw [at']
        simp only [callerRoused]
        rw [← at']
      simp only [callerRoused]
      rw [← at']
      exact inv

/-- The broadcast on `cv_done`. -/
theorem Inv.announce (inv : Inv nThreads s) {i : Nat} (inside : i < target nThreads)
    (at' : (s.workers i).pc = .announce) :
    Inv nThreads { s.moveTo i .announceUnlock with caller := callerRoused s.caller } := by
  have mine : s.mu = some (.worker i) := (inv.workers i inside).held.mpr (by rw [at']; rfl)
  have awake : (callerRoused s.caller).sleeps = false := by
    cases caller : s.caller with
    | wait =>
        have held := inv.held.mpr (by rw [caller]; rfl)
        rw [mine] at held
        injection held with held
        cases held
    | _ => rfl
  have walked := inv.caller_roused.walks inside (p := .announceUnlock) (by rw [at']; rfl) rfl
    (by rw [at']; rfl) (fun g from' => by cases from') (fun same => by cases same)
    (fun same => by cases same) (fun same => by cases same) (by rw [at']; rfl)
    (fun sleeps => by rw [awake] at sleeps; cases sleeps)
    (by rw [at']; intro same; cases same)
  exact walked

/-- Every step of a worker keeps the invariant. -/
theorem Inv.worker (inv : Inv nThreads s) {i : Nat} (inside : i < target nThreads)
    {s' : State Work} (fired : workerStep nThreads s i = some s') : Inv nThreads s' := by
  unfold workerStep at fired
  cases at' : (s.workers i).pc with
  | poll =>
      simp only [at', Option.some.injEq] at fired
      rw [← fired]
      exact inv.poll inside at'
  | checkStop =>
      simp only [at', Option.some.injEq] at fired
      rw [← fired]
      exact inv.check_stop inside at'
  | locking =>
      simp only [at', State.acquire] at fired
      by_cases free : s.mu = none
      · rw [if_pos free, Option.some.injEq] at fired
        rw [← fired]
        apply inv.locks inside free <;> simp [at', WorkerPc.rest, WorkerPc.critical,
          WorkerPc.found, WorkerPc.counted, WorkerPc.announcing]
      · rw [if_neg free] at fired
        cases fired
  | counting =>
      simp only [at', Option.some.injEq] at fired
      rw [← fired]
      exact inv.counting inside at'
  | recheck =>
      simp only [at', Option.some.injEq] at fired
      rw [← fired]
      exact inv.recheck inside at'
  | recheckStop =>
      simp only [at'] at fired
      by_cases stopped : s.stop = true
      · rw [if_pos stopped, Option.some.injEq] at fired
        rw [← fired]
        exact inv.recheck_stop inside at' stopped
      · rw [if_neg stopped, Option.some.injEq] at fired
        rw [← fired]
        have running := Bool.eq_false_iff.mpr stopped
        apply inv.unlocks inside <;> simp [at', WorkerPc.rest, WorkerPc.critical,
          WorkerPc.found, WorkerPc.counted, WorkerPc.announcing, running]
  | asleep =>
      simp only [at'] at fired
      cases fired
  | relock =>
      simp only [at', State.acquire] at fired
      by_cases free : s.mu = none
      · rw [if_pos free, Option.some.injEq] at fired
        rw [← fired]
        apply inv.locks inside free <;> simp [at', WorkerPc.rest, WorkerPc.critical,
          WorkerPc.found, WorkerPc.counted, WorkerPc.announcing]
      · rw [if_neg free] at fired
        cases fired
  | uncount g =>
      simp only [at', Option.some.injEq] at fired
      rw [← fired]
      exact inv.uncount inside at'
  | unlock g =>
      simp only [at', Option.some.injEq] at fired
      rw [← fired]
      apply inv.unlocks inside <;> simp [at', WorkerPc.rest, WorkerPc.critical,
        WorkerPc.found, WorkerPc.counted, WorkerPc.announcing]
  | take g =>
      simp only [at'] at fired
      by_cases stopped : s.stop = true
      · rw [if_pos stopped, Option.some.injEq] at fired
        rw [← fired]
        apply inv.walks inside <;> simp [at', WorkerPc.rest, WorkerPc.critical,
          WorkerPc.found, WorkerPc.counted, WorkerPc.announcing, stopped]
      · rw [if_neg stopped, Option.some.injEq] at fired
        rw [← fired]
        exact inv.take inside at' stopped
  | read =>
      simp only [at', Option.some.injEq] at fired
      rw [← fired]
      exact inv.read inside at'
  | work job =>
      simp only [at', Option.some.injEq] at fired
      rw [← fired]
      exact inv.work inside at'
  | add =>
      simp only [at', Option.some.injEq] at fired
      rw [← fired]
      exact inv.add inside at'
  | notice =>
      simp only [at', Option.some.injEq] at fired
      rw [← fired]
      exact inv.notice inside at'
  | announceLock =>
      simp only [at', State.acquire] at fired
      by_cases free : s.mu = none
      · rw [if_pos free, Option.some.injEq] at fired
        rw [← fired]
        apply inv.locks inside free <;> simp [at', WorkerPc.rest, WorkerPc.critical,
          WorkerPc.found, WorkerPc.counted, WorkerPc.announcing]
      · rw [if_neg free] at fired
        cases fired
  | announce =>
      simp only [at', Option.some.injEq] at fired
      rw [← fired]
      exact inv.announce inside at'
  | announceUnlock =>
      simp only [at', Option.some.injEq] at fired
      rw [← fired]
      apply inv.unlocks inside <;> simp [at', WorkerPc.rest, WorkerPc.critical,
        WorkerPc.found, WorkerPc.counted, WorkerPc.announcing]
  | exited =>
      simp only [at'] at fired
      cases fired

end GridcoreRunner.Pool
