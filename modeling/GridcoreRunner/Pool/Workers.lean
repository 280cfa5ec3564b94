import GridcoreRunner.Pool.Invariant

/-!
# A worker's steps

Most steps of a worker move it from one resting place to the next and change at most the lock
and the count of sleepers. The others are the start of a job, its work, and its place in
`n_done`.
-/

namespace GridcoreRunner.Pool

set_option autoImplicit false

open Table

variable {Work : Type*} {nThreads : Nat} {s s' : State Work} {i : Nat}

theorem generation_moves (g : UInt64) : g + 1 ≠ g := by
  intro same
  have numbers := congrArg UInt64.toNat same
  rw [UInt64.toNat_add] at numbers
  have below := g.toNat_lt
  have one : (1 : UInt64).toNat = 1 := rfl
  omega

/-- One resting place to another. -/
theorem WorkerOk.rests {v : View Work} {w : Worker Work} (ok : WorkerOk v i w)
    {u : Option Holder} {p : WorkerPc Work} (was : w.pc.rest = true) (now : p.rest = true)
    (held : u = some (.worker i) ↔ p.critical = true)
    (found : ∀ g, p.found = some g → w.pc.found = some g ∨
      g = v.gen ∧ v.gen ≠ w.seen ∨ g = w.seen ∧ v.stop = true)
    (goes : p = .recheckStop → w.seen = v.gen)
    (sleeps : p = .asleep → w.pc = .recheckStop ∧ v.stop = false)
    (ahead : v.ahead = true → v.waking = true)
    (exits : p = .exited → v.stop = true) :
    WorkerOk { v with mu := u } i { w with pc := p } := by
  have through : ∀ p : WorkerPc Work, p.rest = true → p.past = true := by
    intro p resting
    cases p with
    | read => cases resting
    | work job => cases resting
    | _ => rfl
  constructor
  · cases ok.level with
    | inl same => exact .inl same
    | inr behind => exact .inr ⟨behind.1, now, behind.2.2⟩
  · intro _
    exact now
  · intro g from'
    cases found g from' with
    | inl before => exact ok.found g before
    | inr news =>
        cases news with
        | inl newer =>
            cases ok.level with
            | inl same => exact absurd same.symm newer.2
            | inr behind => exact .inl ⟨newer.1, behind.1⟩
        | inr stopped => exact .inr stopped
  · intro job working
    subst working
    cases now
  · exact held
  · intro at'
    exact .inl (goes at')
  · intro at'
    obtain ⟨before, running⟩ := sleeps at'
    constructor
    · cases ok.goes before with
      | inl same => exact .inl same
      | inr coming => exact .inr (ahead coming)
    · intro stopped
      rw [running] at stopped
      cases stopped
  · exact exits
  · have before := ok.ran
    simp only [through w.pc was, through p now] at before ⊢
    exact before

theorem CallerPc.waking_of_ahead {pc : CallerPc Work} (ahead : pc.ahead = true) :
    pc.waking = true := by
  cases pc with
  | look => rfl
  | wakeLock => rfl
  | _ => cases ahead

/-- A change of the lock that is none of a worker's own. -/
theorem WorkerOk.lock {v : View Work} {w : Worker Work} (ok : WorkerOk v i w) {mu : Option Holder}
    (other : mu = some (.worker i) ↔ v.mu = some (.worker i)) :
    WorkerOk { v with mu := mu } i w :=
  ⟨ok.level, ok.quiet, ok.found, ok.working, other.trans ok.held, ok.goes, ok.sleeps, ok.exits,
    ok.ran⟩

/-- A step from one resting place to another keeps the invariant. -/
theorem Inv.rests (inv : Inv nThreads s) (inside : i < target nThreads) {p : WorkerPc Work}
    {u : Option Holder} {n : Nat} (was : (s.workers i).pc.rest = true)
    (now : p.rest = true)
    (own : WorkerOk { s.view with mu := u } i { s.workers i with pc := p })
    (apart : ∀ j, j ≠ i → (u = some (.worker j) ↔ s.mu = some (.worker j)))
    (held : u = some .caller ↔ s.mu = some .caller)
    (counted : n + (if (s.workers i).pc.counted = true then 1 else 0) =
      s.nSleeping + (if p.counted = true then 1 else 0))
    (announcing : s.caller.sleeps = true → (s.workers i).pc.announcing = true →
      p.announcing = true)
    (going : (s.workers i).pc ≠ .exited) :
    Inv nThreads { s.moveTo i p with mu := u, nSleeping := n } := by
  constructor
  · intro j below
    by_cases same : j = i
    · subst same
      simp only [State.moveTo, Function.update_self]
      exact own
    · simp only [State.moveTo, Function.update_of_ne same]
      exact (inv.workers j below).lock (apart j same)
  · intro running
    have changed := count_update (through s.gen) inside s.workers { s.workers i with pc := p }
    have still : through s.gen { s.workers i with pc := p } = through s.gen (s.workers i) := by
      unfold through
      rw [now, was]
    rw [still] at changed
    exact (inv.done running).trans (Nat.add_right_cancel changed).symm
  · have changed := count_update (fun w => w.pc.counted) inside s.workers
      { s.workers i with pc := p }
    have before := inv.sleeping
    simp only [State.moveTo] at changed ⊢
    omega
  · exact held.trans inv.held
  · exact inv.parked
  · exact inv.reset
  · intro sleeps all
    obtain ⟨j, below, coming⟩ := inv.announced sleeps all
    refine ⟨j, below, ?_⟩
    by_cases same : j = i
    · subst same
      simp only [State.moveTo, Function.update_self]
      exact announcing sleeps coming
    · simp only [State.moveTo, Function.update_of_ne same]
      exact coming
  · exact inv.stop
  · exact inv.idle
  · exact inv.ranJob
  · exact inv.ranCaller
  · exact inv.finished
  · intro j below joined
    have exited := inv.joined j below joined
    by_cases same : j = i
    · subst same
      exact absurd exited going
    · simp only [State.moveTo, Function.update_of_ne same]
      exact exited

/-! ## Waiting for work -/

section Waiting

variable (inv : Inv nThreads s) (inside : i < target nThreads)
include inv inside

/-- A step that leaves the lock and the count of sleepers alone. -/
theorem Inv.walks {p : WorkerPc Work} (was : (s.workers i).pc.rest = true) (now : p.rest = true)
    (critical : (s.workers i).pc.critical = p.critical)
    (found : ∀ g, p.found = some g → (s.workers i).pc.found = some g ∨
      g = s.gen ∧ s.gen ≠ (s.workers i).seen ∨ g = (s.workers i).seen ∧ s.stop = true)
    (goes : p = .recheckStop → (s.workers i).seen = s.gen) (awake : p ≠ .asleep)
    (exits : p = .exited → s.stop = true)
    (counted : (s.workers i).pc.counted = p.counted)
    (announcing : s.caller.sleeps = true → (s.workers i).pc.announcing = true →
      p.announcing = true)
    (going : (s.workers i).pc ≠ .exited) : Inv nThreads (s.moveTo i p) := by
  have ok := inv.workers i inside
  have own := ok.rests (u := s.mu) was now (by rw [← critical]; exact ok.held) found goes
    (fun at' => absurd at' awake) CallerPc.waking_of_ahead exits
  exact inv.rests inside (u := s.mu) (n := s.nSleeping) was now own (fun _ _ => Iff.rfl)
    Iff.rfl (by rw [counted]) announcing going

theorem Inv.poll (at' : (s.workers i).pc = .poll) :
    Inv nThreads (s.moveTo i (if s.gen = (s.workers i).seen then .checkStop else .take s.gen)) := by
  by_cases same : s.gen = (s.workers i).seen
  · rw [if_pos same]
    apply inv.walks inside <;> simp [at', WorkerPc.rest, WorkerPc.critical, WorkerPc.found,
      WorkerPc.counted, WorkerPc.announcing]
  · rw [if_neg same]
    apply inv.walks inside <;> simp [at', WorkerPc.rest, WorkerPc.critical, WorkerPc.found,
      WorkerPc.counted, WorkerPc.announcing]
    exact .inl same

theorem Inv.check_stop (at' : (s.workers i).pc = .checkStop) :
    Inv nThreads (s.moveTo i (if s.stop then .exited else .poll)) := by
  by_cases stopped : s.stop = true
  · rw [if_pos stopped]
    apply inv.walks inside <;> simp [at', WorkerPc.rest, WorkerPc.critical, WorkerPc.found,
      WorkerPc.counted, WorkerPc.announcing, stopped]
  · rw [if_neg stopped]
    apply inv.walks inside <;> simp [at', WorkerPc.rest, WorkerPc.critical, WorkerPc.found,
      WorkerPc.counted, WorkerPc.announcing]

theorem Inv.parks (at' : (s.workers i).pc = .checkStop) :
    Inv nThreads (s.moveTo i .locking) := by
  apply inv.walks inside <;> simp [at', WorkerPc.rest, WorkerPc.critical, WorkerPc.found,
    WorkerPc.counted, WorkerPc.announcing]

theorem Inv.recheck (at' : (s.workers i).pc = .recheck) :
    Inv nThreads
      (s.moveTo i (if s.gen = (s.workers i).seen then .recheckStop else .uncount s.gen)) := by
  by_cases same : s.gen = (s.workers i).seen
  · rw [if_pos same]
    apply inv.walks inside <;> simp [at', WorkerPc.rest, WorkerPc.critical, WorkerPc.found,
      WorkerPc.counted, WorkerPc.announcing, same]
  · rw [if_neg same]
    apply inv.walks inside <;> simp [at', WorkerPc.rest, WorkerPc.critical, WorkerPc.found,
      WorkerPc.counted, WorkerPc.announcing]
    exact .inl same

theorem Inv.recheck_stop (at' : (s.workers i).pc = .recheckStop) (stopped : s.stop = true) :
    Inv nThreads (s.moveTo i (.uncount (s.workers i).seen)) := by
  apply inv.walks inside <;> simp [at', WorkerPc.rest, WorkerPc.critical, WorkerPc.found,
    WorkerPc.counted, WorkerPc.announcing, stopped]

theorem Inv.wakes (at' : (s.workers i).pc = .asleep) : Inv nThreads (s.moveTo i .relock) := by
  apply inv.walks inside <;> simp [at', WorkerPc.rest, WorkerPc.critical, WorkerPc.found,
    WorkerPc.counted, WorkerPc.announcing]

theorem Inv.notice (at' : (s.workers i).pc = .notice) :
    Inv nThreads (s.moveTo i (if s.callerParked then .announceLock else .poll)) := by
  by_cases parked : s.callerParked = true
  · rw [if_pos parked]
    apply inv.walks inside <;> simp [at', WorkerPc.rest, WorkerPc.critical, WorkerPc.found,
      WorkerPc.counted, WorkerPc.announcing]
  · rw [if_neg parked]
    have awake : s.caller.sleeps = false := by
      have flag := inv.parked
      cases caller : s.caller with
      | wait => exact absurd (flag (by rw [caller]; rfl)) parked
      | asleep => exact absurd (flag (by rw [caller]; rfl)) parked
      | _ => rfl
    apply inv.walks inside <;> simp [at', WorkerPc.rest, WorkerPc.critical, WorkerPc.found,
      WorkerPc.counted, WorkerPc.announcing, awake]

/-- Taking the lock. -/
theorem Inv.locks {pc : WorkerPc Work} (free : s.mu = none)
    (was : (s.workers i).pc.rest = true) (now : pc.rest = true) (critical : pc.critical = true)
    (found : pc.found = none) (goes : pc ≠ .recheckStop) (awake : pc ≠ .asleep)
    (exits : pc ≠ .exited) (counted : (s.workers i).pc.counted = pc.counted)
    (announcing : (s.workers i).pc.announcing = true → pc.announcing = true)
    (going : (s.workers i).pc ≠ .exited) :
    Inv nThreads { s.moveTo i pc with mu := some (.worker i) } := by
  have ok := inv.workers i inside
  have own := ok.rests (u := some (.worker i)) was now ⟨fun _ => critical, fun _ => rfl⟩
    (fun g from' => by rw [found] at from'; cases from') (fun at' => absurd at' goes)
    (fun at' => absurd at' awake) CallerPc.waking_of_ahead (fun at' => absurd at' exits)
  apply inv.rests inside (u := some (.worker i)) (n := s.nSleeping) was now own
  · intro j other
    rw [free]
    constructor
    · intro same
      injection same with same
      injection same with same
      exact absurd same.symm other
    · intro none'
      cases none'
  · rw [free]
    constructor
    · intro same
      injection same with same
      cases same
    · intro none'
      cases none'
  · rw [counted]
  · intro _
    exact announcing
  · exact going

/-- Giving the lock back. -/
theorem Inv.unlocks {pc : WorkerPc Work} (was : (s.workers i).pc.rest = true)
    (holds : (s.workers i).pc.critical = true) (now : pc.rest = true)
    (critical : pc.critical = false)
    (found : ∀ g, pc.found = some g → (s.workers i).pc.found = some g)
    (awake : pc = .asleep → (s.workers i).pc = .recheckStop ∧ s.stop = false)
    (exits : pc ≠ .exited) (counted : (s.workers i).pc.counted = pc.counted)
    (announcing : (s.workers i).pc.announcing = true → pc.announcing = true)
    (going : (s.workers i).pc ≠ .exited) (goes : pc ≠ .recheckStop) :
    Inv nThreads { s.moveTo i pc with mu := none } := by
  have ok := inv.workers i inside
  have held : s.mu = some (.worker i) := ok.held.mpr holds
  have own := ok.rests (u := none) was now
    ⟨fun none' => (by cases none'), fun same => (by rw [critical] at same; cases same)⟩
    (fun g from' => .inl (found g from')) (fun at' => absurd at' goes) awake
    CallerPc.waking_of_ahead (fun at' => absurd at' exits)
  apply inv.rests inside (u := none) (n := s.nSleeping) was now own
  · intro j other
    rw [held]
    constructor
    · intro none'
      cases none'
    · intro same
      injection same with same
      injection same with same
      exact absurd same.symm other
  · rw [held]
    constructor
    · intro none'
      cases none'
    · intro same
      injection same with same
      cases same
  · rw [counted]
  · intro _
    exact announcing
  · exact going

theorem Inv.counting (at' : (s.workers i).pc = .counting) :
    Inv nThreads { s.moveTo i .recheck with nSleeping := s.nSleeping + 1 } := by
  have ok := inv.workers i inside
  have own := ok.rests (u := s.mu) (p := .recheck) (by rw [at']; rfl) rfl
    (ok.held.trans (by rw [at']; exact Iff.rfl)) (fun g from' => by cases from')
    (fun same => by cases same) (fun same => by cases same) CallerPc.waking_of_ahead
    (fun same => by cases same)
  apply inv.rests inside (u := s.mu) (n := s.nSleeping + 1) _ rfl own
    (fun _ _ => Iff.rfl) Iff.rfl <;> simp [at', WorkerPc.rest, WorkerPc.counted,
      WorkerPc.announcing]

theorem Inv.uncount {g : UInt64} (at' : (s.workers i).pc = .uncount g) :
    Inv nThreads { s.moveTo i (.unlock g) with nSleeping := s.nSleeping - 1 } := by
  have ok := inv.workers i inside
  have own := ok.rests (u := s.mu) (p := .unlock g) (by rw [at']; rfl) rfl
    (ok.held.trans (by rw [at']; exact Iff.rfl)) (fun g' from' => .inl (by rw [at']; exact from'))
    (fun same => by cases same) (fun same => by cases same) CallerPc.waking_of_ahead
    (fun same => by cases same)
  have some' : 0 < s.nSleeping := by
    have changed := count_update (fun w => w.pc.counted) inside s.workers
      { s.workers i with pc := .unlock g }
    have all := inv.sleeping
    have was : (s.workers i).pc.counted = true := by
      rw [at']
      rfl
    have now : (WorkerPc.unlock g : WorkerPc Work).counted = false := rfl
    simp only [was, now, if_true, Bool.false_eq_true, if_false] at changed
    omega
  apply inv.rests inside (u := s.mu) (n := s.nSleeping - 1) _ rfl own
    (fun _ _ => Iff.rfl) Iff.rfl <;> simp [at', WorkerPc.rest, WorkerPc.counted,
      WorkerPc.announcing]
  omega

end Waiting

/-! ## The work -/

theorem CallerPc.inRun_of_not_quiet {pc : CallerPc Work} (busy : pc.quiet = false) :
    pc.inRun = true := by
  cases pc <;> first | rfl | cases busy

theorem CallerPc.quiet_of_reset {pc : CallerPc Work} (reset : pc.reset = true) :
    pc.quiet = true := by
  cases pc <;> first | rfl | cases reset

/-- A worker that is busy is in the run that is on. -/
theorem WorkerOk.busy {v : View Work} {w : Worker Work} (ok : WorkerOk v i w)
    (rest : w.pc.rest = false) : w.seen = v.gen ∧ v.quiet = false := by
  constructor
  · cases ok.level with
    | inl same => exact same
    | inr behind =>
        rw [rest] at behind
        cases behind.2.1
  · cases quiet : v.quiet with
    | false => rfl
    | true =>
        have resting := ok.quiet quiet
        rw [rest] at resting
        cases resting

section Working

variable (inv : Inv nThreads s) (inside : i < target nThreads)
include inv inside

/-- A step that leaves the lock and the sleepers alone. -/
theorem Inv.acts {w : Worker Work} {d : Nat} {l : List (Ran Work)}
    (own : WorkerOk { s.view with ran := l } i w)
    (others : ∀ j, j ≠ i → (l.map Ran.idx).count (j + 1) = (s.ran.map Ran.idx).count (j + 1))
    (through' : s.caller.quiet = false →
      d + (if through s.gen (s.workers i) = true then 1 else 0) =
        s.nDone + (if through s.gen w = true then 1 else 0))
    (counted : w.pc.counted = (s.workers i).pc.counted)
    (reset : s.caller.reset = true → d = s.nDone)
    (announced : s.caller.sleeps = true → d = target nThreads →
      ∃ j < target nThreads, (Function.update s.workers i w j).pc.announcing = true)
    (idle : s.caller.inRun = false → l = [])
    (ranJob : ∀ r ∈ l, r.job = s.job ∧ r.idx < nThreads ∧
      r.slice = tpSlice r.idx nThreads s.job.nItems)
    (ranCaller : (l.map Ran.idx).count 0 = (s.ran.map Ran.idx).count 0)
    (going : (s.workers i).pc ≠ .exited) :
    Inv nThreads { s with workers := Function.update s.workers i w, nDone := d, ran := l } := by
  constructor
  · intro j below
    by_cases same : j = i
    · subst same
      simp only [Function.update_self]
      exact own
    · simp only [Function.update_of_ne same]
      have ok := inv.workers j below
      exact ⟨ok.level, ok.quiet, ok.found, ok.working, ok.held, ok.goes, ok.sleeps, ok.exits,
        (others j same).trans ok.ran⟩
  · intro running
    have changed := count_update (through s.gen) inside s.workers w
    have before := inv.done running
    have now := through' running
    rw [before] at now
    exact Nat.add_right_cancel (now.trans changed.symm)
  · have changed := count_update (fun w => w.pc.counted) inside s.workers w
    simp only [counted] at changed
    exact inv.sleeping.trans (Nat.add_right_cancel changed).symm
  · exact inv.held
  · exact inv.parked
  · intro at'
    exact (reset at').trans (inv.reset at')
  · exact announced
  · exact inv.stop
  · exact idle
  · exact ranJob
  · exact ranCaller.trans inv.ranCaller
  · exact inv.finished
  · intro j below joined
    have exited := inv.joined j below joined
    by_cases same : j = i
    · subst same
      exact absurd exited going
    · simp only [Function.update_of_ne same]
      exact exited

omit inside in
/-- Who is not announcing is not missed among those who are. -/
theorem Inv.still_announced {w : Worker Work} (quiet : (s.workers i).pc.announcing = false)
    (sleeps : s.caller.sleeps = true) (all : s.nDone = target nThreads) :
    ∃ j < target nThreads, (Function.update s.workers i w j).pc.announcing = true := by
  obtain ⟨j, below, coming⟩ := inv.announced sleeps all
  refine ⟨j, below, ?_⟩
  rw [Function.update_of_ne]
  · exact coming
  · intro same
    rw [same, quiet] at coming
    cases coming

theorem Inv.take {g : UInt64} (at' : (s.workers i).pc = .take g) (running : s.stop ≠ true) :
    Inv nThreads { s with workers := Function.update s.workers i { seen := g, pc := .read } } := by
  have ok := inv.workers i inside
  obtain ⟨newest, behind⟩ : g = s.gen ∧ (s.workers i).seen + 1 = s.gen := by
    cases ok.found g (by rw [at']; rfl) with
    | inl news => exact news
    | inr stopped => exact absurd stopped.2 running
  have older : (s.workers i).seen ≠ s.gen := by
    intro same
    rw [same] at behind
    exact generation_moves _ behind
  have busy : s.view.quiet = false := by
    cases ok.level with
    | inl same => exact absurd same older
    | inr level => exact level.2.2
  have notHeld : s.mu ≠ some (.worker i) := by
    intro held
    have critical := ok.held.mp held
    rw [at'] at critical
    cases critical
  have none' := ok.ran
  simp only [State.view, older, false_and, and_false, if_false] at none'
  apply inv.acts inside (d := s.nDone) (l := s.ran)
  · constructor
    · exact .inl newest
    · intro quiet
      rw [show s.view.quiet = true from quiet] at busy
      cases busy
    · intro g from'
      cases from'
    · intro job working
      cases working
    · constructor
      · intro held
        exact absurd held notHeld
      · intro critical
        cases critical
    · intro at'
      cases at'
    · intro at'
      cases at'
    · intro at'
      cases at'
    · simp only [WorkerPc.past, Bool.false_eq_true, and_false, if_false]
      exact none'
  · intro j _
    rfl
  · intro _
    simp [through, older, WorkerPc.rest]
  · rw [at']
    rfl
  · intro _
    rfl
  · intro sleeps all
    apply inv.still_announced _ sleeps all
    rw [at']
    rfl
  · exact inv.idle
  · exact inv.ranJob
  · rfl
  · rw [at']
    intro same
    cases same

theorem Inv.read (at' : (s.workers i).pc = .read) :
    Inv nThreads (s.moveTo i (.work s.job)) := by
  have ok := inv.workers i inside
  obtain ⟨level, busy⟩ := ok.busy (by rw [at']; rfl)
  have none' := ok.ran
  simp only [at', WorkerPc.past, Bool.false_eq_true, and_false, if_false] at none'
  apply inv.acts inside (w := { s.workers i with pc := .work s.job }) (d := s.nDone)
    (l := s.ran)
  · constructor
    · exact .inl level
    · intro quiet
      rw [show s.view.quiet = true from quiet] at busy
      cases busy
    · intro g from'
      cases from'
    · intro job working
      injection working with same
      exact same.symm
    · exact ok.held.trans (by rw [at']; exact Iff.rfl)
    · intro at'
      cases at'
    · intro at'
      cases at'
    · intro at'
      cases at'
    · simp only [WorkerPc.past, Bool.false_eq_true, and_false, if_false]
      exact none'
  · intro j _
    rfl
  · intro _
    simp [through, at', WorkerPc.rest]
  · rw [at']
    rfl
  · intro _
    rfl
  · intro sleeps all
    apply inv.still_announced _ sleeps all
    rw [at']
    rfl
  · exact inv.idle
  · exact inv.ranJob
  · rfl
  · rw [at']
    intro same
    cases same

theorem Inv.work {job : Job Work} (at' : (s.workers i).pc = .work job) :
    Inv nThreads { s.moveTo i .add with
      ran := s.ran ++ [⟨job, i + 1, tpSlice (i + 1) nThreads job.nItems⟩] } := by
  have ok := inv.workers i inside
  obtain ⟨level, busy⟩ := ok.busy (by rw [at']; rfl)
  have own : job = s.job := ok.working job at'
  subst own
  have none' := ok.ran
  simp only [at', WorkerPc.past, Bool.false_eq_true, and_false, if_false] at none'
  have running : s.caller.inRun = true := CallerPc.inRun_of_not_quiet busy
  apply inv.acts inside (w := { s.workers i with pc := .add }) (d := s.nDone)
  · constructor
    · exact .inl level
    · intro quiet
      rw [show s.view.quiet = true from quiet] at busy
      cases busy
    · intro g from'
      cases from'
    · intro job working
      cases working
    · exact ok.held.trans (by rw [at']; exact Iff.rfl)
    · intro at'
      cases at'
    · intro at'
      cases at'
    · intro at'
      cases at'
    · have once : (s.ran.map Ran.idx).count (i + 1) = 0 := none'
      simp only [List.map_append, List.map_cons, List.map_nil, List.count_append, once]
      simp [State.view, running, WorkerPc.past]
      exact level
  · intro j other
    simp only [List.map_append, List.map_cons, List.map_nil, List.count_append]
    rw [List.count_singleton, if_neg]
    · exact Nat.add_zero _
    · simp only [beq_iff_eq]
      omega
  · intro _
    simp [through, at', WorkerPc.rest]
  · rw [at']
    rfl
  · intro _
    rfl
  · intro sleeps all
    apply inv.still_announced _ sleeps all
    rw [at']
    rfl
  · intro out
    rw [running] at out
    cases out
  · intro r member
    cases List.mem_append.mp member with
    | inl before => exact inv.ranJob r before
    | inr new =>
        rw [List.mem_singleton] at new
        rw [new]
        unfold target at inside
        exact ⟨rfl, by simp only; omega, rfl⟩
  · simp only [List.map_append, List.map_cons, List.map_nil, List.count_append]
    rw [List.count_singleton, if_neg]
    · exact Nat.add_zero _
    · simp only [beq_iff_eq]
      omega
  · rw [at']
    intro same
    cases same

/-- Where a worker goes from `add`. -/
theorem Inv.adds {pc : WorkerPc Work} (at' : (s.workers i).pc = .add)
    (place : pc = .notice ∨ pc = .poll) (last : s.nDone + 1 = target nThreads → pc = .notice) :
    Inv nThreads { s.moveTo i pc with nDone := s.nDone + 1 } := by
  have ok := inv.workers i inside
  obtain ⟨level, busy⟩ := ok.busy (by rw [at']; rfl)
  have resting : pc.rest = true ∧ pc.past = true ∧ pc.critical = false ∧ pc.found = none ∧
      pc.counted = false ∧ pc ≠ .asleep ∧ pc ≠ .exited ∧ pc ≠ .recheckStop := by
    cases place with
    | inl now => simp [now, WorkerPc.rest, WorkerPc.past, WorkerPc.critical, WorkerPc.found,
        WorkerPc.counted]
    | inr now => simp [now, WorkerPc.rest, WorkerPc.past, WorkerPc.critical, WorkerPc.found,
        WorkerPc.counted]
  obtain ⟨rest, past, critical, found, counted, awake, going, notYet⟩ := resting
  have working : ∀ job, pc ≠ .work job := by
    intro job same
    rw [same] at rest
    cases rest
  have own : WorkerOk s.view i { s.workers i with pc := pc } := by
    constructor
    · exact .inl level
    · intro _
      exact rest
    · intro g from'
      rw [show pc.found = some g from from'] at found
      cases found
    · intro job same
      exact absurd same (working job)
    · apply ok.held.trans
      rw [at', critical]
      exact Iff.rfl
    · intro same
      exact absurd same notYet
    · intro same
      exact absurd same awake
    · intro same
      exact absurd same going
    · have once := ok.ran
      rw [at'] at once
      rw [past]
      exact once
  apply inv.acts inside (w := { s.workers i with pc := pc }) (l := s.ran) own
  · intro j _
    rfl
  · intro _
    have same : (s.workers i).seen = s.gen := level
    have was : through s.gen (s.workers i) = false := by
      simp [through, at', WorkerPc.rest]
    have now : through s.gen { s.workers i with pc := pc } = true := by
      simp [through, rest, same]
    rw [was, now]
    rfl
  · rw [at']
    exact counted
  · intro reset
    have quiet := CallerPc.quiet_of_reset reset
    rw [show s.caller.quiet = false from busy] at quiet
    cases quiet
  · intro _ all
    refine ⟨i, inside, ?_⟩
    rw [Function.update_self, last all]
    rfl
  · exact inv.idle
  · exact inv.ranJob
  · rfl
  · rw [at']
    intro same
    cases same

theorem Inv.add (at' : (s.workers i).pc = .add) :
    Inv nThreads
      { s.moveTo i (if s.nDone + 1 = target nThreads then .notice else .poll) with
        nDone := s.nDone + 1 } := by
  by_cases all : s.nDone + 1 = target nThreads
  · rw [if_pos all]
    exact inv.adds inside at' (.inl rfl) fun _ => rfl
  · rw [if_neg all]
    exact inv.adds inside at' (.inr rfl) fun same => absurd same all

end Working

end GridcoreRunner.Pool
