import GridcoreRunner.Pool.Account

/-!
# The turns of a run

The steps of the caller that the workers feel: the new generation, the look for sleepers and
the broadcast, the return, and the stop.
-/

namespace GridcoreRunner.Pool

set_option autoImplicit false

open Table

variable {Work : Type*} {nThreads : Nat} {s : State Work}

/-! ## A run begins -/

section Begin

variable (inv : Inv nThreads s)
include inv

theorem Inv.quiet_level (quiet : s.caller.quiet = true) {i : Nat} (inside : i < target nThreads) :
    (s.workers i).seen = s.gen ∧ (s.workers i).pc.rest = true := by
  have ok := inv.workers i inside
  constructor
  · cases ok.level with
    | inl same => exact same
    | inr behind =>
        have busy : s.caller.quiet = false := behind.2.2
        rw [quiet] at busy
        cases busy
  · exact ok.quiet quiet

theorem Inv.write {job : Job Work} (at' : s.caller = .write job) :
    Inv nThreads { s with job := job, caller := .resetDone } := by
  have quiet : s.caller.quiet = true := by
    rw [at']
    rfl
  have none' : s.ran = [] := inv.idle (by rw [at']; rfl)
  constructor
  · intro i inside
    have resting := (inv.quiet_level quiet inside).2
    have ok := inv.workers i inside
    unfold State.view at ok
    rw [at'] at ok
    refine ⟨ok.level, ok.quiet, ok.found, ?_, ok.held, ok.goes, ok.sleeps, ok.exits, ok.ran⟩
    intro job working
    rw [working] at resting
    cases resting
  · intro running
    cases running
  · exact inv.sleeping
  · exact inv.held.trans (by rw [at']; exact Iff.rfl)
  · intro parked
    cases parked
  · intro reset
    cases reset
  · intro sleeps
    cases sleeps
  · exact inv.stop.trans (by rw [at']; rfl)
  · intro _
    exact none'
  · intro r member
    simp only [none'] at member
    cases member
  · simp only [none']
    rfl
  · exact inv.finished
  · intro i _ joined
    exact absurd joined (not_joined (by simp) (by simp) i)

theorem Inv.reset_done (at' : s.caller = .resetDone) :
    Inv nThreads { s with nDone := 0, caller := .resetParked } := by
  constructor
  · intro i inside
    have ok := inv.workers i inside
    unfold State.view at ok
    rw [at'] at ok
    exact ok
  · intro running
    cases running
  · exact inv.sleeping
  · exact inv.held.trans (by rw [at']; exact Iff.rfl)
  · intro parked
    cases parked
  · intro _
    rfl
  · intro sleeps
    cases sleeps
  · exact inv.stop.trans (by rw [at']; rfl)
  · intro _
    exact inv.idle (by rw [at']; rfl)
  · exact inv.ranJob
  · have none' := inv.ranCaller
    rw [at'] at none'
    exact none'
  · exact inv.finished
  · intro i _ joined
    exact absurd joined (not_joined (by simp) (by simp) i)

/-- The new generation: every worker is behind it by one. -/
theorem Inv.bump (at' : s.caller = .bump) :
    Inv nThreads { s with gen := s.gen + 1, caller := .look } := by
  have quiet : s.caller.quiet = true := by
    rw [at']
    rfl
  have none' : s.ran = [] := inv.idle (by rw [at']; rfl)
  have running : s.stop = false := inv.stop.trans (by rw [at']; rfl)
  have behind : ∀ i < target nThreads, (s.workers i).seen ≠ s.gen + 1 := by
    intro i inside same
    rw [(inv.quiet_level quiet inside).1] at same
    exact generation_moves s.gen same.symm
  constructor
  · intro i inside
    obtain ⟨level, resting⟩ := inv.quiet_level quiet inside
    have ok := inv.workers i inside
    constructor
    · refine .inr ⟨?_, resting, rfl⟩
      rw [level]
      rfl
    · intro quiet
      cases quiet
    · intro g from'
      cases ok.found g from' with
      | inl news =>
          have next : (s.workers i).seen + 1 = s.gen := news.2
          rw [level] at next
          exact absurd next (generation_moves s.gen)
      | inr stopped =>
          have flag : s.stop = true := stopped.2
          rw [running] at flag
          cases flag
    · exact ok.working
    · exact ok.held
    · intro _
      exact .inr rfl
    · intro _
      refine ⟨.inr rfl, ?_⟩
      intro stopped
      have flag : s.stop = true := stopped
      rw [running] at flag
      cases flag
    · exact ok.exits
    · simp only [State.view, none', List.map_nil, List.count_nil]
      rw [if_neg]
      intro counts
      exact behind i inside counts.2.1
  · intro _
    have zero : s.nDone = 0 := inv.reset (by rw [at']; rfl)
    simp only [zero]
    symm
    apply count_zero
    intro i inside
    simp [through, behind i inside]
  · exact inv.sleeping
  · exact inv.held.trans (by rw [at']; exact Iff.rfl)
  · intro parked
    cases parked
  · intro reset
    cases reset
  · intro sleeps
    cases sleeps
  · exact inv.stop.trans (by rw [at']; rfl)
  · intro out
    cases out
  · exact inv.ranJob
  · have zero := inv.ranCaller
    rw [at'] at zero
    exact zero
  · exact inv.finished
  · intro i _ joined
    exact absurd joined (not_joined (by simp) (by simp) i)

/-- The caller moves on where no worker is about to sleep, or where it still goes to wake
them. -/
theorem Inv.moves_on {pc : CallerPc Work} {u : Option Holder}
    (same : (pc.quiet, pc.inRun, pc.computed, pc.stopping, pc.stopped, pc.reset, pc.parked,
      pc.sleeps) = (s.caller.quiet, s.caller.inRun, s.caller.computed, s.caller.stopping,
      s.caller.stopped, s.caller.reset, s.caller.parked, s.caller.sleeps))
    (lock : ∀ i, u = some (.worker i) ↔ s.mu = some (.worker i))
    (held : u = some .caller ↔ pc.critical = true)
    (goes : ∀ i < target nThreads, (s.workers i).pc = .recheckStop → pc.ahead = true)
    (sleeps : ∀ i < target nThreads, (s.workers i).pc = .asleep → pc.waking = true)
    (joined : ∀ i < target nThreads, pc = .gone ∨ (∃ k, pc = .join k ∧ i < k) →
      (s.workers i).pc = .exited) :
    Inv nThreads { s with caller := pc, mu := u } := by
  simp only [Prod.mk.injEq] at same
  obtain ⟨quiet, inRun, computed, stopping, stopped, reset, parked, asleep⟩ := same
  constructor
  · intro i inside
    have ok := (inv.workers i inside).lock (lock i)
    unfold State.view at ok ⊢
    simp only [quiet, inRun, stopping]
    refine ⟨ok.level, ok.quiet, ok.found, ok.working, ok.held, ?_, ?_, ok.exits, ok.ran⟩
    · intro there
      exact .inr (goes i inside there)
    · intro there
      exact ⟨.inr (sleeps i inside there), (ok.sleeps there).2⟩
  · intro running
    exact inv.done (quiet.symm.trans running)
  · exact inv.sleeping
  · exact held
  · intro flag
    exact inv.parked (parked.symm.trans flag)
  · intro at'
    exact inv.reset (reset.symm.trans at')
  · intro flag
    exact inv.announced (asleep.symm.trans flag)
  · exact inv.stop.trans stopped.symm
  · intro out
    exact inv.idle (inRun.symm.trans out)
  · exact inv.ranJob
  · rw [computed]
    exact inv.ranCaller
  · exact inv.finished
  · exact joined

end Begin

/-! ## The broadcasts on `cv_work` -/

@[simp] theorem roused_seen (w : Worker Work) : (roused w).seen = w.seen := by
  cases w with
  | mk seen pc => cases pc <;> rfl

@[simp] theorem roused_rest (w : Worker Work) : (roused w).pc.rest = w.pc.rest := by
  cases w with
  | mk seen pc => cases pc <;> rfl

@[simp] theorem roused_past (w : Worker Work) : (roused w).pc.past = w.pc.past := by
  cases w with
  | mk seen pc => cases pc <;> rfl

@[simp] theorem roused_critical (w : Worker Work) : (roused w).pc.critical = w.pc.critical := by
  cases w with
  | mk seen pc => cases pc <;> rfl

@[simp] theorem roused_counted (w : Worker Work) : (roused w).pc.counted = w.pc.counted := by
  cases w with
  | mk seen pc => cases pc <;> rfl

@[simp] theorem roused_found (w : Worker Work) : (roused w).pc.found = w.pc.found := by
  cases w with
  | mk seen pc => cases pc <;> rfl

@[simp] theorem roused_announcing (w : Worker Work) :
    (roused w).pc.announcing = w.pc.announcing := by
  cases w with
  | mk seen pc => cases pc <;> rfl

theorem roused_awake (w : Worker Work) : (roused w).pc ≠ .asleep := by
  intro same
  cases w with
  | mk seen pc => cases pc <;> cases same

/-- A broadcast moves sleepers only. -/
theorem roused_same {w : Worker Work} {pc : WorkerPc Work} (at' : (roused w).pc = pc)
    (other : pc ≠ .relock) : w.pc = pc := by
  cases w with
  | mk seen here =>
      cases here with
      | asleep => exact absurd at'.symm other
      | _ => exact at'

theorem Inv.broadcast (inv : Inv nThreads s) {pc : CallerPc Work}
    (same : (pc.quiet, pc.inRun, pc.computed, pc.ahead, pc.stopped, pc.reset, pc.parked,
      pc.sleeps, pc.critical) = (s.caller.quiet, s.caller.inRun, s.caller.computed, s.caller.ahead,
      s.caller.stopped, s.caller.reset, s.caller.parked, s.caller.sleeps, s.caller.critical))
    (notGone : pc ≠ .gone) (notJoin : ∀ k, pc ≠ .join k) :
    Inv nThreads { s with workers := fun i => roused (s.workers i), caller := pc } := by
  simp only [Prod.mk.injEq] at same
  obtain ⟨quiet, inRun, computed, ahead, stopped, reset, parked, asleep, critical⟩ := same
  constructor
  · intro i inside
    have ok := inv.workers i inside
    unfold State.view at ok ⊢
    simp only [quiet, inRun, ahead]
    constructor
    · rw [roused_seen, roused_rest]
      exact ok.level
    · rw [roused_rest]
      exact ok.quiet
    · rw [roused_found, roused_seen]
      exact ok.found
    · intro job working
      exact ok.working job (roused_same working (by intro same; cases same))
    · rw [roused_critical]
      exact ok.held
    · intro there
      rw [roused_seen]
      exact ok.goes (roused_same there (by intro same; cases same))
    · intro there
      exact absurd there (roused_awake _)
    · intro there
      exact ok.exits (roused_same there (by intro same; cases same))
    · rw [roused_seen, roused_past]
      exact ok.ran
  · intro running
    apply (inv.done (quiet.symm.trans running)).trans
    apply count_congr
    intro i _
    unfold through
    rw [roused_seen, roused_rest]
  · apply inv.sleeping.trans
    apply count_congr
    intro i _
    rw [roused_counted]
  · rw [critical]
    exact inv.held
  · intro flag
    exact inv.parked (parked.symm.trans flag)
  · intro at'
    exact inv.reset (reset.symm.trans at')
  · intro flag all
    obtain ⟨i, inside, coming⟩ := inv.announced (asleep.symm.trans flag) all
    exact ⟨i, inside, (roused_announcing _).trans coming⟩
  · exact inv.stop.trans stopped.symm
  · intro out
    exact inv.idle (inRun.symm.trans out)
  · exact inv.ranJob
  · rw [computed]
    exact inv.ranCaller
  · exact inv.finished
  · intro i _ joined
    exact absurd joined (not_joined notGone notJoin i)

/-! ## The caller's own slice, and the end of a run -/

section End

variable (inv : Inv nThreads s)
include inv

theorem Inv.compute (some' : 0 < nThreads) (at' : s.caller = .compute) :
    Inv nThreads { s with
      ran := s.ran ++ [⟨s.job, 0, tpSlice 0 nThreads s.job.nItems⟩]
      caller := .watch } := by
  constructor
  · intro i inside
    have ok := inv.workers i inside
    unfold State.view at ok
    rw [at'] at ok
    refine ⟨ok.level, ok.quiet, ok.found, ok.working, ok.held, ok.goes, ok.sleeps, ok.exits, ?_⟩
    simp only [State.view, List.map_append, List.map_cons, List.map_nil, List.count_append]
    rw [List.count_singleton, if_neg]
    · exact ok.ran
    · simp only [beq_iff_eq]
      omega
  · intro _
    exact inv.done (by rw [at']; rfl)
  · exact inv.sleeping
  · exact inv.held.trans (by rw [at']; exact Iff.rfl)
  · intro parked
    cases parked
  · intro reset
    cases reset
  · intro sleeps
    cases sleeps
  · exact inv.stop.trans (by rw [at']; rfl)
  · intro out
    cases out
  · intro r member
    cases List.mem_append.mp member with
    | inl before => exact inv.ranJob r before
    | inr new =>
        rw [List.mem_singleton] at new
        rw [new]
        exact ⟨rfl, some', rfl⟩
  · have zero := inv.ranCaller
    rw [at'] at zero
    simp only [List.map_append, List.map_cons, List.map_nil, List.count_append, zero]
    rfl
  · exact inv.finished
  · intro i _ joined
    exact absurd joined (not_joined (by simp) (by simp) i)

/-- All are through: the run is over for the workers. -/
theorem Inv.settles (running : s.caller.inRun = true)
    (all : ∀ i < target nThreads, through s.gen (s.workers i) = true) {ran : List (Ran Work)}
    {inRun : Bool} (account : ran = s.ran ∧ inRun = true ∨ ran = [] ∧ inRun = false)
    {u : Option Holder} (lock : ∀ i, u = some (.worker i) ↔ s.mu = some (.worker i)) :
    ∀ i < target nThreads, WorkerOk ⟨s.gen, s.stop, s.job, u, ran, true, inRun, false, false,
      s.caller.stopping⟩ i (s.workers i) := by
  intro i inside
  have done := all i inside
  unfold through at done
  rw [Bool.and_eq_true, decide_eq_true_eq] at done
  have ok := inv.workers i inside
  refine ⟨.inl done.1, fun _ => done.2, ok.found, ok.working, (lock i).trans ok.held,
    fun _ => .inl done.1, fun there => ⟨.inl done.1, (ok.sleeps there).2⟩, ok.exits, ?_⟩
  cases account with
  | inl kept =>
      have counted := ok.ran
      simp only [State.view, running] at counted
      simp only [kept.1, kept.2]
      exact counted
  | inr cleared =>
      simp only [cleared.1, cleared.2, List.map_nil, List.count_nil, Bool.false_eq_true, false_and,
        if_false]

/-- The run returns. -/
theorem Inv.returns (some' : 0 < nThreads) (running : s.caller.inRun = true)
    (computed : s.caller.computed = true) (notStopped : s.caller.stopped = false)
    (notStopping : s.caller.stopping = false)
    (all : ∀ i < target nThreads, through s.gen (s.workers i) = true) {u : Option Holder}
    (lock : ∀ i, u = some (.worker i) ↔ s.mu = some (.worker i)) (free : u ≠ some .caller) :
    Inv nThreads { s.returned with mu := u } := by
  have settled := inv.settles running all (.inr ⟨rfl, rfl⟩) lock
  constructor
  · intro i inside
    have ok := settled i inside
    rw [notStopping] at ok
    exact ok
  · intro busy
    cases busy
  · exact inv.sleeping
  · constructor
    · intro held
      exact absurd held free
    · intro critical
      cases critical
  · intro parked
    cases parked
  · intro reset
    cases reset
  · intro sleeps
    cases sleeps
  · exact inv.stop.trans notStopped
  · intro _
    rfl
  · intro r member
    cases member
  · rfl
  · intro run member
    cases List.mem_append.mp member with
    | inl before => exact inv.finished run before
    | inr new =>
        rw [List.mem_singleton] at new
        rw [new]
        exact inv.complete some' running computed all
  · intro i _ joined
    exact absurd joined (not_joined (by intro same; cases same) (by intro k same; cases same) i)

theorem Inv.clears (at' : s.caller = .recheck) (full : target nThreads ≤ s.nDone) :
    Inv nThreads { s with caller := .clear } := by
  have all := inv.all_through (by rw [at']; rfl) full
  have settled := inv.settles (by rw [at']; rfl) all (.inl ⟨rfl, rfl⟩) (u := s.mu)
    fun _ => Iff.rfl
  constructor
  · intro i inside
    have ok := settled i inside
    rw [at'] at ok
    exact ok
  · intro busy
    cases busy
  · exact inv.sleeping
  · exact inv.held.trans (by rw [at']; exact Iff.rfl)
  · intro parked
    cases parked
  · intro reset
    cases reset
  · intro sleeps
    cases sleeps
  · exact inv.stop.trans (by rw [at']; rfl)
  · intro out
    cases out
  · exact inv.ranJob
  · have zero := inv.ranCaller
    rw [at'] at zero
    exact zero
  · exact inv.finished
  · intro i _ joined
    exact absurd joined (not_joined (by simp) (by simp) i)

/-- The stop flag, with its broadcast still to come. -/
theorem Inv.stops (at' : s.caller = .stopFlag) :
    Inv nThreads { s with stop := true, caller := .stopWake } := by
  constructor
  · intro i inside
    have ok := inv.workers i inside
    unfold State.view at ok
    rw [at'] at ok
    refine ⟨ok.level, ok.quiet, ?_, ok.working, ok.held, ok.goes, ?_, fun _ => rfl, ok.ran⟩
    · intro g from'
      cases ok.found g from' with
      | inl news => exact .inl news
      | inr stopped => exact .inr ⟨stopped.1, rfl⟩
    · intro there
      exact ⟨(ok.sleeps there).1, fun _ => rfl⟩
  · intro busy
    cases busy
  · exact inv.sleeping
  · exact inv.held.trans (by rw [at']; exact Iff.rfl)
  · intro parked
    cases parked
  · intro reset
    cases reset
  · intro sleeps
    cases sleeps
  · rfl
  · intro _
    exact inv.idle (by rw [at']; rfl)
  · exact inv.ranJob
  · have zero := inv.ranCaller
    rw [at'] at zero
    exact zero
  · exact inv.finished
  · intro i _ joined
    exact absurd joined (not_joined (by simp) (by simp) i)

end End

end GridcoreRunner.Pool
