import GridcoreRunner.Pool.Turns

/-!
# Runs of the pool

Every step keeps the invariant, so it holds of every state the threads can get to. Read off it:
a run that has returned has had each of its items done once, with its own job; nobody sleeps
through a broadcast; and when the pool is destroyed no worker is left in it.
-/

namespace GridcoreRunner.Pool

set_option autoImplicit false

open Table Runs

variable {Work : Type*} {nThreads : Nat} {s : State Work}

/-! ## Every step -/

theorem not_counted (inv : Inv nThreads s) (none' : s.nSleeping = 0) {i : Nat}
    (inside : i < target nThreads) : (s.workers i).pc.counted = false := by
  have zero := inv.sleeping.symm.trans none'
  unfold count at zero
  rw [List.countP_eq_zero] at zero
  exact Bool.eq_false_iff.mpr (zero i (List.mem_range.mpr inside))

theorem Inv.caller (inv : Inv nThreads s) (some' : 0 < nThreads) {s' : State Work}
    (fired : callerStep nThreads s = some s') : Inv nThreads s' := by
  have notGone : ∀ {pc : CallerPc Work}, pc ≠ .gone → (∀ k, pc ≠ .join k) →
      ∀ i < target nThreads, pc = .gone ∨ (∃ k, pc = .join k ∧ i < k) →
        (s.workers i).pc = .exited := by
    intro pc gone joins i _ joined
    exact absurd joined (not_joined gone joins i)
  have mine : s.caller.critical = true → s.mu = some .caller := inv.held.mpr
  unfold callerStep at fired
  cases at' : s.caller with
  | idle =>
      simp only [at'] at fired
      cases fired
  | write job =>
      simp only [at', Option.some.injEq] at fired
      rw [← fired]
      exact inv.write at'
  | resetDone =>
      simp only [at', Option.some.injEq] at fired
      rw [← fired]
      exact inv.reset_done at'
  | resetParked =>
      simp only [at', Option.some.injEq] at fired
      rw [← fired]
      apply inv.strolls (u := s.mu) (by rw [at']; rfl) (fun _ => Iff.rfl)
        (inv.keeps_lock (by rw [at']; rfl)) (fun parked => by cases parked)
        (fun sleeps => by cases sleeps)
      exact notGone (by intro same; cases same) (by intro k same; cases same)
  | bump =>
      simp only [at', Option.some.injEq] at fired
      rw [← fired]
      exact inv.bump at'
  | look =>
      simp only [at', Option.some.injEq] at fired
      rw [← fired]
      by_cases sleepers : 0 < s.nSleeping
      · rw [if_pos sleepers]
        apply inv.moves_on (u := s.mu) (by rw [at']; rfl) (fun _ => Iff.rfl)
          (inv.keeps_lock (by rw [at']; rfl)) (fun _ _ _ => rfl) (fun _ _ _ => rfl)
        exact notGone (by intro same; cases same) (by intro k same; cases same)
      · rw [if_neg sleepers]
        have awake := fun i inside => not_counted inv (Nat.eq_zero_of_not_pos sleepers)
          (i := i) inside
        apply inv.moves_on (u := s.mu) (by rw [at']; rfl) (fun _ => Iff.rfl)
          (inv.keeps_lock (by rw [at']; rfl))
        · intro i inside there
          have no := awake i inside
          rw [there] at no
          cases no
        · intro i inside there
          have no := awake i inside
          rw [there] at no
          cases no
        · exact notGone (by intro same; cases same) (by intro k same; cases same)
  | wakeLock =>
      simp only [at', State.acquire] at fired
      by_cases free : s.mu = none
      · rw [if_pos free, Option.some.injEq] at fired
        rw [← fired]
        apply inv.moves_on (by rw [at']; rfl) (lock_taken free)
          ⟨fun _ => rfl, fun _ => rfl⟩
        · intro i inside there
          have held := (inv.workers i inside).held.mpr (by rw [there]; rfl)
          rw [show s.view.mu = none from free] at held
          cases held
        · intro _ _ _
          rfl
        · exact notGone (by intro same; cases same) (by intro k same; cases same)
      · rw [if_neg free] at fired
        cases fired
  | wake =>
      simp only [at', Option.some.injEq] at fired
      rw [← fired]
      apply inv.broadcast (by rw [at']; rfl)
      · intro same
        cases same
      · intro k same
        cases same
  | wakeUnlock =>
      simp only [at', Option.some.injEq] at fired
      rw [← fired]
      apply inv.strolls (f := s.callerParked) (by rw [at']; rfl)
        (lock_given (mine (by rw [at']; rfl)))
        ⟨fun none' => (by cases none'), fun critical => (by cases critical)⟩
        (fun parked => by cases parked) (fun sleeps => by cases sleeps)
      exact notGone (by intro same; cases same) (by intro k same; cases same)
  | compute =>
      simp only [at', Option.some.injEq] at fired
      rw [← fired]
      exact inv.compute some' at'
  | watch =>
      simp only [at'] at fired
      by_cases full : target nThreads ≤ s.nDone
      · rw [if_pos full, Option.some.injEq] at fired
        rw [← fired]
        have free : s.mu ≠ some .caller := by
          intro held
          have critical := inv.held.mp held
          rw [at'] at critical
          cases critical
        exact inv.returns some' (by rw [at']; rfl) (by rw [at']; rfl) (by rw [at']; rfl)
          (by rw [at']; rfl) (inv.all_through (by rw [at']; rfl) full) (u := s.mu)
          (fun _ => Iff.rfl) free
      · rw [if_neg full, Option.some.injEq] at fired
        rw [← fired]
        exact inv
  | parkLock =>
      simp only [at', State.acquire] at fired
      by_cases free : s.mu = none
      · rw [if_pos free, Option.some.injEq] at fired
        rw [← fired]
        apply inv.strolls (f := s.callerParked) (by rw [at']; rfl) (lock_taken free)
          ⟨fun _ => rfl, fun _ => rfl⟩ (fun parked => by cases parked)
          (fun sleeps => by cases sleeps)
        exact notGone (by intro same; cases same) (by intro k same; cases same)
      · rw [if_neg free] at fired
        cases fired
  | mark =>
      simp only [at', Option.some.injEq] at fired
      rw [← fired]
      apply inv.strolls (u := s.mu) (by rw [at']; rfl) (fun _ => Iff.rfl)
        (inv.keeps_lock (by rw [at']; rfl)) (fun _ => rfl) (fun sleeps => by cases sleeps)
      exact notGone (by intro same; cases same) (by intro k same; cases same)
  | recheck =>
      simp only [at', Option.some.injEq] at fired
      rw [← fired]
      by_cases missing : s.nDone < target nThreads
      · rw [if_pos missing]
        apply inv.strolls (u := s.mu) (f := s.callerParked) (by rw [at']; rfl)
          (fun _ => Iff.rfl) (inv.keeps_lock (by rw [at']; rfl))
          (fun _ => inv.parked (by rw [at']; rfl))
        · intro _ all
          exact absurd missing (by rw [all]; exact Nat.lt_irrefl _)
        · exact notGone (by intro same; cases same) (by intro k same; cases same)
      · rw [if_neg missing]
        exact inv.clears at' (Nat.le_of_not_lt missing)
  | wait =>
      simp only [at', Option.some.injEq] at fired
      rw [← fired]
      apply inv.strolls (f := s.callerParked) (by rw [at']; rfl)
        (lock_given (mine (by rw [at']; rfl)))
        ⟨fun none' => (by cases none'), fun critical => (by cases critical)⟩
        (fun _ => inv.parked (by rw [at']; rfl))
        (fun _ => inv.announced (by rw [at']; rfl))
      exact notGone (by intro same; cases same) (by intro k same; cases same)
  | asleep =>
      simp only [at'] at fired
      cases fired
  | relock =>
      simp only [at', State.acquire] at fired
      by_cases free : s.mu = none
      · rw [if_pos free, Option.some.injEq] at fired
        rw [← fired]
        apply inv.strolls (f := s.callerParked) (by rw [at']; rfl) (lock_taken free)
          ⟨fun _ => rfl, fun _ => rfl⟩ (fun _ => inv.parked (by rw [at']; rfl))
          (fun sleeps => by cases sleeps)
        exact notGone (by intro same; cases same) (by intro k same; cases same)
      · rw [if_neg free] at fired
        cases fired
  | clear =>
      simp only [at', Option.some.injEq] at fired
      rw [← fired]
      apply inv.strolls (u := s.mu) (by rw [at']; rfl) (fun _ => Iff.rfl)
        (inv.keeps_lock (by rw [at']; rfl)) (fun parked => by cases parked)
        (fun sleeps => by cases sleeps)
      exact notGone (by intro same; cases same) (by intro k same; cases same)
  | leave =>
      simp only [at', Option.some.injEq] at fired
      rw [← fired]
      have quiet := fun i inside => inv.quiet_level (by rw [at']; rfl) (i := i) inside
      apply inv.returns some' (by rw [at']; rfl) (by rw [at']; rfl) (by rw [at']; rfl)
        (by rw [at']; rfl)
      · intro i inside
        unfold through
        rw [Bool.and_eq_true, decide_eq_true_eq]
        exact quiet i inside
      · exact lock_given (mine (by rw [at']; rfl))
      · intro same
        cases same
  | stopLock =>
      simp only [at', State.acquire] at fired
      by_cases free : s.mu = none
      · rw [if_pos free, Option.some.injEq] at fired
        rw [← fired]
        apply inv.strolls (f := s.callerParked) (by rw [at']; rfl) (lock_taken free)
          ⟨fun _ => rfl, fun _ => rfl⟩ (fun parked => by cases parked)
          (fun sleeps => by cases sleeps)
        exact notGone (by intro same; cases same) (by intro k same; cases same)
      · rw [if_neg free] at fired
        cases fired
  | stopFlag =>
      simp only [at', Option.some.injEq] at fired
      rw [← fired]
      exact inv.stops at'
  | stopWake =>
      simp only [at', Option.some.injEq] at fired
      rw [← fired]
      apply inv.broadcast (by rw [at']; rfl)
      · intro same
        cases same
      · intro k same
        cases same
  | stopUnlock =>
      simp only [at', Option.some.injEq] at fired
      rw [← fired]
      apply inv.strolls (f := s.callerParked) (by rw [at']; rfl)
        (lock_given (mine (by rw [at']; rfl)))
        ⟨fun none' => (by cases none'), fun critical => (by cases critical)⟩
        (fun parked => by cases parked) (fun sleeps => by cases sleeps)
      intro i _ joined
      cases joined with
      | inl same => cases same
      | inr same =>
          obtain ⟨k, same, below⟩ := same
          injection same with same
          omega
  | join k =>
      simp only [at'] at fired
      have joins : ∀ i < target nThreads, i < k → (s.workers i).pc = .exited := by
        intro i inside below
        exact inv.joined i inside (.inr ⟨k, at', below⟩)
      by_cases more : k < target nThreads
      · rw [if_pos more] at fired
        cases exit : (s.workers k).pc with
        | exited =>
            simp only [exit, Option.some.injEq] at fired
            rw [← fired]
            apply inv.strolls (u := s.mu) (f := s.callerParked) (by rw [at']; rfl)
              (fun _ => Iff.rfl) (inv.keeps_lock (by rw [at']; rfl))
              (fun parked => by cases parked) (fun sleeps => by cases sleeps)
            intro i inside joined
            cases joined with
            | inl same => cases same
            | inr same =>
                obtain ⟨k', same, below⟩ := same
                injection same with same
                by_cases last : i = k
                · rw [last]
                  exact exit
                · exact joins i inside (by omega)
        | _ =>
            simp only [exit] at fired
            cases fired
      · rw [if_neg more, Option.some.injEq] at fired
        rw [← fired]
        apply inv.strolls (u := s.mu) (f := s.callerParked) (by rw [at']; rfl)
          (fun _ => Iff.rfl) (inv.keeps_lock (by rw [at']; rfl))
          (fun parked => by cases parked) (fun sleeps => by cases sleeps)
        intro i inside _
        exact joins i inside (by omega)
  | gone =>
      simp only [at'] at fired
      cases fired

theorem alone_complete (job : Job Work) :
    Complete (job, [⟨job, 0, (0, job.nItems)⟩]) := by
  constructor
  · intro r member
    rw [List.mem_singleton] at member
    rw [member]
  · simp only [List.flatMap_cons, List.flatMap_nil, List.append_nil, Ran.items, Nat.sub_zero]
    rw [← List.range_eq_range']

theorem Inv.tpool_run (inv : Inv nThreads s) {job : Job Work} {s' : State Work}
    (fired : tpoolRun nThreads s job = some s') : Inv nThreads s' := by
  unfold tpoolRun at fired
  cases at' : s.caller with
  | idle =>
      simp only [at'] at fired
      by_cases nothing : job.nItems = 0
      · rw [if_pos nothing, Option.some.injEq] at fired
        rw [← fired]
        exact inv
      rw [if_neg nothing] at fired
      by_cases alone : nThreads ≤ 1 ∨ job.nItems < 2
      · rw [if_pos alone, Option.some.injEq] at fired
        rw [← fired, ← at']
        refine ⟨inv.workers, inv.done, inv.sleeping, inv.held, inv.parked, inv.reset,
          inv.announced, inv.stop, inv.idle, inv.ranJob, inv.ranCaller, ?_, inv.joined⟩
        intro run member
        cases List.mem_append.mp member with
        | inl before => exact inv.finished run before
        | inr new =>
            rw [List.mem_singleton] at new
            rw [new]
            exact alone_complete job
      · rw [if_neg alone, Option.some.injEq] at fired
        rw [← fired]
        apply inv.strolls (u := s.mu) (f := s.callerParked) (by rw [at']; rfl)
          (fun _ => Iff.rfl) (inv.keeps_lock (by rw [at']; rfl))
          (fun parked => by cases parked) (fun sleeps => by cases sleeps)
        intro i _ joined
        exact absurd joined (not_joined (by simp) (by simp) i)
  | _ =>
      simp only [at'] at fired
      cases fired

theorem Inv.fire (inv : Inv nThreads s) (some' : 0 < nThreads) {event : Event Work}
    {s' : State Work} (fired : fire nThreads s event = some s') : Inv nThreads s' := by
  cases event with
  | worker i =>
      simp only [Pool.fire] at fired
      by_cases inside : i < target nThreads
      · rw [if_pos inside] at fired
        exact inv.worker inside fired
      · rw [if_neg inside] at fired
        cases fired
  | workerParks i =>
      simp only [Pool.fire] at fired
      by_cases inside : i < target nThreads
      · rw [if_pos inside] at fired
        unfold workerParks at fired
        cases at' : (s.workers i).pc with
        | checkStop =>
            simp only [at'] at fired
            by_cases stopped : s.stop = true
            · rw [if_pos stopped] at fired
              cases fired
            · rw [if_neg stopped, Option.some.injEq] at fired
              rw [← fired]
              exact inv.parks inside at'
        | _ =>
            simp only [at'] at fired
            cases fired
      · rw [if_neg inside] at fired
        cases fired
  | workerWakes i =>
      simp only [Pool.fire] at fired
      by_cases inside : i < target nThreads
      · rw [if_pos inside] at fired
        unfold workerWakes at fired
        cases at' : (s.workers i).pc with
        | asleep =>
            simp only [at', Option.some.injEq] at fired
            rw [← fired]
            exact inv.wakes inside at'
        | _ =>
            simp only [at'] at fired
            cases fired
      · rw [if_neg inside] at fired
        cases fired
  | tpoolRun job => exact inv.tpool_run fired
  | tpoolDestroy =>
      simp only [Pool.fire, tpoolDestroy] at fired
      cases at' : s.caller with
      | idle =>
          simp only [at', Option.some.injEq] at fired
          rw [← fired]
          apply inv.strolls (u := s.mu) (f := s.callerParked) (by rw [at']; rfl)
            (fun _ => Iff.rfl) (inv.keeps_lock (by rw [at']; rfl))
            (fun parked => by cases parked) (fun sleeps => by cases sleeps)
          intro i _ joined
          exact absurd joined (not_joined (by simp) (by simp) i)
      | _ =>
          simp only [at'] at fired
          cases fired
  | caller => exact inv.caller some' fired
  | callerParks =>
      simp only [Pool.fire, callerParks] at fired
      cases at' : s.caller with
      | watch =>
          simp only [at'] at fired
          by_cases full : target nThreads ≤ s.nDone
          · rw [if_pos full] at fired
            cases fired
          · rw [if_neg full, Option.some.injEq] at fired
            rw [← fired]
            apply inv.strolls (u := s.mu) (f := s.callerParked) (by rw [at']; rfl)
              (fun _ => Iff.rfl) (inv.keeps_lock (by rw [at']; rfl))
              (fun parked => by cases parked) (fun sleeps => by cases sleeps)
            intro i _ joined
            exact absurd joined (not_joined (by simp) (by simp) i)
      | _ =>
          simp only [at'] at fired
          cases fired
  | callerWakes =>
      simp only [Pool.fire, callerWakes] at fired
      cases at' : s.caller with
      | asleep =>
          simp only [at', Option.some.injEq] at fired
          have roused := inv.caller_roused
          rw [at'] at roused
          rw [← fired]
          exact roused
      | _ =>
          simp only [at'] at fired
          cases fired

theorem created_inv (created : Created s) : Inv nThreads s := by
  obtain ⟨gen, done, sleeping, parked, stop, mu, workers, caller, ran, finished⟩ := created
  constructor
  · intro i _
    rw [workers i]
    unfold State.view
    rw [gen, stop, mu, ran, caller]
    refine ⟨.inl rfl, fun _ => rfl, ?_, ?_, ?_, ?_, ?_, ?_, rfl⟩
    · intro g from'
      cases from'
    · intro job working
      cases working
    · constructor
      · intro held
        cases held
      · intro critical
        cases critical
    · intro there
      cases there
    · intro there
      cases there
    · intro there
      cases there
  · intro busy
    rw [caller] at busy
    cases busy
  · rw [sleeping]
    symm
    apply count_zero
    intro i _
    rw [workers i]
    rfl
  · rw [mu, caller]
    constructor
    · intro held
      cases held
    · intro critical
      cases critical
  · intro flag
    rw [caller] at flag
    cases flag
  · intro flag
    rw [caller] at flag
    cases flag
  · intro flag
    rw [caller] at flag
    cases flag
  · rw [stop, caller]
    rfl
  · intro _
    exact ran
  · intro r member
    rw [ran] at member
    cases member
  · rw [ran, caller]
    rfl
  · intro run member
    rw [finished] at member
    cases member
  · intro i _ joined
    rw [caller] at joined
    cases joined with
    | inl same => cases same
    | inr same =>
        obtain ⟨k, same, _⟩ := same
        cases same

theorem run_inv (some' : 0 < nThreads) (run : Reachable Created (fire nThreads) s) :
    Inv nThreads s :=
  run.invariant (fun _ created => created_inv created)
    fun _ _ _ inv _ fired => inv.fire some' fired

/-! ## What follows -/

/-- Every run that has returned has had each of its items done by one thread, once, with the
function and the context it was called with: whatever order the threads get on in, however
long they spin, and whatever they wake for. -/
theorem runs_are_complete (some' : 0 < nThreads)
    (run : Reachable Created (fire nThreads) s) : ∀ r ∈ s.finished, Complete r :=
  (run_inv some' run).finished

/-- Nobody sleeps through what it waits for. A worker that is parked while there is a newer
generation is still counted among the sleepers, and the caller has its look at that count, and
the broadcast, before it. A worker that is parked while the pool is stopped has the broadcast
before it too. A caller that is parked while all are done has its flag up, and a worker on the
way to the broadcast. No worker reads the job while the caller writes it, and none is left
when the pool is freed. -/
theorem nobody_sleeps_through (some' : 0 < nThreads)
    (run : Reachable Created (fire nThreads) s) :
    (∀ i < target nThreads, (s.workers i).pc = .asleep → (s.workers i).seen ≠ s.gen →
      s.caller.waking = true ∧ 0 < s.nSleeping) ∧
    (∀ i < target nThreads, (s.workers i).pc = .asleep → s.stop = true → s.caller = .stopWake) ∧
    (s.caller = .asleep → target nThreads ≤ s.nDone → s.callerParked = true ∧
      ∃ i < target nThreads, (s.workers i).pc.announcing = true) ∧
    (∀ i < target nThreads, (s.workers i).pc = .read → ∀ job, s.caller ≠ .write job) ∧
    (s.caller = .gone → ∀ i < target nThreads, (s.workers i).pc = .exited) := by
  have inv := run_inv some' run
  refine ⟨?_, ?_, ?_, ?_, ?_⟩
  · intro i inside asleep news
    have ok := inv.workers i inside
    constructor
    · cases (ok.sleeps asleep).1 with
      | inl same => exact absurd same news
      | inr waking => exact waking
    · apply Nat.pos_of_ne_zero
      intro none'
      have counted := not_counted inv none' inside
      rw [asleep] at counted
      cases counted
  · intro i inside asleep stopped
    have waking : s.caller.stopping = true := ((inv.workers i inside).sleeps asleep).2 stopped
    cases at' : s.caller with
    | stopWake => rfl
    | _ =>
        rw [at'] at waking
        cases waking
  · intro asleep full
    have busy : s.caller.quiet = false := by
      rw [asleep]
      rfl
    constructor
    · apply inv.parked
      rw [asleep]
      rfl
    · apply inv.announced
      · rw [asleep]
        rfl
      · have most : count (through s.gen) (target nThreads) s.workers ≤ target nThreads := by
          have length := List.countP_le_length (p := fun i => through s.gen (s.workers i))
            (l := List.range (target nThreads))
          rw [List.length_range] at length
          exact length
        rw [← inv.done busy] at most
        exact Nat.le_antisymm most full
  · intro i inside reading job writing
    have resting := (inv.workers i inside).quiet (by rw [State.view, writing]; rfl)
    rw [reading] at resting
    cases resting
  · intro gone i inside
    exact inv.joined i inside (.inl gone)

/-- A pool of two threads that has just been created. -/
def fresh : State Unit where
  job := ⟨(), 0⟩
  gen := 0
  nDone := 0
  nSleeping := 0
  callerParked := false
  stop := false
  mu := none
  workers _ := ⟨0, .poll⟩
  caller := .idle
  ran := []
  finished := []

theorem fresh_created : Created fresh :=
  ⟨rfl, rfl, rfl, rfl, rfl, rfl, fun _ => rfl, rfl, rfl, rfl⟩

/-- The worker parks, a run of three items wakes it, the caller parks, and the worker's
broadcast lets the run return. -/
def handoff : List (Event Unit) :=
  [.worker 0, .workerParks 0, .worker 0, .worker 0, .worker 0, .worker 0,
    .tpoolRun ⟨(), 3⟩] ++ List.replicate 10 .caller ++
  [.worker 0, .worker 0, .worker 0, .worker 0, .worker 0, .worker 0, .callerParks, .caller,
    .caller, .caller, .caller, .worker 0, .worker 0, .worker 0, .worker 0, .worker 0, .worker 0,
    .caller, .caller, .caller, .caller]

theorem handoff_run : Reachable Created (fire 2) (play (fire 2) fresh handoff) :=
  Reaches.plays (.start fresh fresh_created) handoff (fun _ _ _ => trivial) (by decide +kernel)

theorem handoff_returns : (play (fire 2) fresh handoff).finished ≠ [] :=
  List.ne_nil_of_length_pos (by decide +kernel)

theorem runs_are_complete_handoff :
    Complete ((play (fire 2) fresh handoff).finished.head handoff_returns) :=
  runs_are_complete (by decide) handoff_run _ (List.head_mem handoff_returns)

/-- Before the caller has looked for sleepers. -/
theorem nobody_sleeps_through_handoff :
    let s := play (fire 2) fresh (handoff.take 12)
    s.caller.waking = true ∧ 0 < s.nSleeping :=
  (nobody_sleeps_through (by decide)
    (Reaches.plays (.start fresh fresh_created) (handoff.take 12) (fun _ _ _ => trivial)
      (by decide +kernel))).1 0 (by decide) rfl (by decide +kernel)

end GridcoreRunner.Pool
