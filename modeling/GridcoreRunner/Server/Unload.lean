import GridcoreRunner.Server.Swap

/-!
# What an unload leaves behind

The model a request was given stays in the slot until the request is over, the resident
index names what the slot holds, and an unload that was put off is carried out at the next
safe point, except that a load it cancelled leaves a draft model where it was.
-/

namespace GridcoreRunner.Server

open GridcoreRunner.Runs

set_option autoImplicit false

variable {cfg : Config} {s next : State}

/-! ## The invariant -/

def Worker.active : Worker → Nat
  | .idle | .ended => 0
  | _ => 1

def Worker.inLoad : Worker → Bool
  | .loading _ => true
  | _ => false

/-- What a request holds while it is served. -/
def Worker.holding : Worker → Option (Option Model)
  | .served held | .settled held => some held
  | _ => none

structure Inv (cfg : Config) (s : State) : Prop where
  resident : s.resident = s.slot.map Model.index
  valid : ∀ m, s.slot = some m → m.index < cfg.reg.length ∧ m.serial < s.born ∧ m.serial ∉ s.freed
  freed : ∀ serial ∈ s.freed, serial < s.born
  loading : s.loading = s.worker.inLoad
  empty : s.loading = true → s.slot = none
  entry : ∀ idx, s.worker = .loading idx → idx < cfg.reg.length
  active : s.activeRequests = s.worker.active
  holding : ∀ held, s.worker.holding = some held → s.slot = held ∧ held.isSome = true

theorem lookup_valid {want : Option String} {idx : Nat} (found : cfg.lookup want = some idx) :
    idx < cfg.reg.length := by
  have first := cfg.registered
  unfold Config.lookup at found
  cases want with
  | none =>
      cases found
      exact first
  | some name =>
      dsimp only at found
      split_ifs at found with empty
      · cases found
        exact first
      · cases known : cfg.reg.findIdx? (fun entry => entry == name) with
        | some listed =>
            rw [known] at found
            cases found
            exact (List.findIdx?_eq_some_iff_getElem.mp known).1
        | none =>
            rw [known] at found
            cases found
            exact first
      · cases known : cfg.reg.findIdx? (fun entry => entry == name) with
        | some listed =>
            rw [known] at found
            cases found
            exact (List.findIdx?_eq_some_iff_getElem.mp known).1
        | none =>
            rw [known] at found
            cases found

theorem inv_starts (starts : Starts cfg s) : Inv cfg s := by
  have first := cfg.registered
  rcases starts.preload with ⟨slot, resident, _⟩ | ⟨_, slot, resident, born⟩
  · constructor
    · rw [slot, resident]
      rfl
    · intro m held
      rw [slot] at held
      cases held
    · rw [starts.freed]
      intro serial inside
      cases inside
    · rw [starts.loading, starts.worker]
      rfl
    · intro _
      exact slot
    · intro idx at'
      rw [starts.worker] at at'
      cases at'
    · rw [starts.active, starts.worker]
      rfl
    · intro held holds
      rw [starts.worker] at holds
      cases holds
  · constructor
    · rw [slot, resident]
      rfl
    · intro m held
      rw [slot] at held
      cases held
      rw [starts.freed, born]
      exact ⟨first, by decide, by simp⟩
    · rw [starts.freed]
      intro serial inside
      cases inside
    · rw [starts.loading, starts.worker]
      rfl
    · intro busy
      rw [starts.loading] at busy
      cases busy
    · intro idx at'
      rw [starts.worker] at at'
      cases at'
    · rw [starts.active, starts.worker]
      rfl
    · intro held holds
      rw [starts.worker] at holds
      cases holds

/-- The flags, the times and the draft are nothing to the invariant. -/
theorem Inv.flags (inv : Inv cfg s) (draft pending cancel awake : Bool) (ttl lastUsed : Int) :
    Inv cfg { s with
      draft := draft
      pendingUnload := pending
      loadCancel := cancel
      awake := awake
      ttl := ttl
      lastUsed := lastUsed } where
  resident := inv.resident
  valid := inv.valid
  freed := inv.freed
  loading := inv.loading
  empty := inv.empty
  entry := inv.entry
  active := inv.active
  holding := inv.holding

/-- The worker moves on, and the slot stays as it is. -/
theorem Inv.moves (inv : Inv cfg s) (worker : Worker) (loading : s.loading = worker.inLoad)
    (entry : ∀ idx, worker = .loading idx → idx < cfg.reg.length)
    (holding : ∀ held, worker.holding = some held → s.slot = held ∧ held.isSome = true) :
    Inv cfg { s with activeRequests := worker.active, worker := worker } where
  resident := inv.resident
  valid := inv.valid
  freed := inv.freed
  loading := loading
  empty := inv.empty
  entry := entry
  active := rfl
  holding := holding

/-- An emptied slot; the worker must not be serving from it. -/
theorem Inv.unloads (inv : Inv cfg s) (unheld : s.worker.holding = none) :
    Inv cfg s.unloadResident ∧ s.unloadResident.slot = none ∧ s.unloadResident.resident = none := by
  have named := inv.resident
  unfold State.unloadResident
  cases slot : s.slot with
  | none =>
      rw [slot] at named
      have nobody : s.resident = none := named
      rw [nobody]
      exact ⟨inv, slot, nobody⟩
  | some m =>
      rw [slot] at named
      have somebody : s.resident = some m.index := named
      rw [somebody]
      have held := inv.valid m slot
      refine ⟨?_, rfl, rfl⟩
      constructor
      · rfl
      · intro other absurd
        cases absurd
      · intro serial inside
        rcases List.mem_cons.mp inside with same | old
        · rw [same]
          exact held.2.1
        · exact inv.freed serial old
      · exact inv.loading
      · intro _
        rfl
      · exact inv.entry
      · exact inv.active
      · intro held' holds
        dsimp only at holds
        rw [unheld] at holds
        cases holds

theorem unload_resident_worker : s.unloadResident.worker = s.worker := by
  unfold State.unloadResident
  cases s.resident <;> rfl

theorem unload_resident_draft : s.unloadResident.draft = s.draft := by
  unfold State.unloadResident
  cases s.resident <;> rfl

theorem unload_resident_pending : s.unloadResident.pendingUnload = s.pendingUnload := by
  unfold State.unloadResident
  cases s.resident <;> rfl

theorem unload_resident_loading : s.unloadResident.loading = s.loading := by
  unfold State.unloadResident
  cases s.resident <;> rfl

/-! ## Steps -/

theorem begin_swap_inv (inv : Inv cfg s) {want : Option String} (at' : s.worker = .entered want)
    {idx : Nat} (entry : idx < cfg.reg.length) : Inv cfg (s.beginSwap idx) := by
  have busy : s.activeRequests = 1 := by
    rw [inv.active, at']
    rfl
  have unloaded : s.loading = false := by
    rw [inv.loading, at']
    rfl
  have named := inv.resident
  unfold State.beginSwap
  dsimp only
  split_ifs with same
  · -- the model is there already
    have plain := inv.flags s.draft false s.loadCancel s.awake s.ttl s.lastUsed
    have held : s.slot.isSome = true := by
      cases slot : s.slot with
      | none =>
          rw [slot, same] at named
          cases named
      | some m => rfl
    have moved := plain.moves (.served s.slot) unloaded (fun _ absurd => by cases absurd)
      (fun held' holds => by
        cases holds
        exact ⟨rfl, held⟩)
    have count : (Worker.served s.slot).active = s.activeRequests := by
      rw [busy]
      rfl
    rw [count] at moved
    exact moved
  · have plain := inv.flags s.draft false s.loadCancel s.awake s.ttl s.lastUsed
    have emptied := plain.unloads (by
      show s.worker.holding = none
      rw [at']
      rfl)
    constructor
    · exact emptied.1.resident
    · exact emptied.1.valid
    · exact emptied.1.freed
    · rfl
    · intro _
      exact emptied.2.1
    · intro other same'
      cases same'
      exact entry
    · show _ = 1
      rw [emptied.1.active, unload_resident_worker]
      show s.worker.active = 1
      rw [at']
      rfl
    · intro held holds
      cases holds

theorem end_swap_inv (inv : Inv cfg s) {idx : Nat} (at' : s.worker = .loading idx)
    (outcome : Outcome) : Inv cfg (s.endSwap cfg idx outcome) := by
  have busy : s.activeRequests = 1 := by
    rw [inv.active, at']
    rfl
  have during : s.loading = true := by
    rw [inv.loading, at']
    rfl
  have slot := inv.empty during
  have named := inv.resident
  have fresh : s.born ∉ s.freed := fun inside => Nat.lt_irrefl _ (inv.freed _ inside)
  rw [slot] at named
  unfold State.endSwap
  dsimp only
  split_ifs with broken turned
  · constructor
    · exact inv.resident
    · exact inv.valid
    · exact inv.freed
    · rfl
    · intro absurd
      cases absurd
    · intro other same
      cases same
    · exact busy
    · intro held holds
      cases holds
  · -- the new model is freed and never seen in the slot
    constructor
    · exact inv.resident
    · intro m held
      rw [show s.slot = some m from held] at slot
      cases slot
    · intro serial inside
      rcases List.mem_cons.mp inside with same | old
      · rw [same]
        exact Nat.lt_succ_self _
      · exact Nat.lt_succ_of_lt (inv.freed serial old)
    · rfl
    · intro absurd
      cases absurd
    · intro other same
      cases same
    · exact busy
    · intro held holds
      cases holds
  · constructor
    · rfl
    · intro m held
      cases held
      exact ⟨inv.entry idx at', Nat.lt_succ_self _, fresh⟩
    · intro serial inside
      exact Nat.lt_succ_of_lt (inv.freed serial inside)
    · rfl
    · intro absurd
      cases absurd
    · intro other same
      cases same
    · exact busy
    · intro held holds
      cases holds
      exact ⟨rfl, rfl⟩

theorem keep_inv (inv : Inv cfg s) {held : Option Model} (at' : s.worker = .served held)
    (seconds : Int) : Inv cfg (s.keep held seconds) := by
  have busy : s.activeRequests = 1 := by
    rw [inv.active, at']
    rfl
  have idle : s.loading = false := by
    rw [inv.loading, at']
    rfl
  have holds := inv.holding held (by rw [at']; rfl)
  have moved := inv.moves (.settled held) idle (fun _ absurd => by cases absurd)
    (fun held' same => by
      cases same
      exact holds)
  have count : (Worker.settled held).active = s.activeRequests := by
    rw [busy]
    rfl
  rw [count] at moved
  unfold State.keep
  split_ifs with zero
  · exact moved.flags _ _ _ _ _ _
  · exact moved.flags _ _ _ _ _ _
  · exact moved.flags _ _ _ _ _ _

theorem end_request_inv (inv : Inv cfg s) (at' : s.worker = .ended) (now : Int) :
    Inv cfg (s.endRequest now) := by
  have idle : s.loading = false := by
    rw [inv.loading, at']
    rfl
  have nobody : s.activeRequests = 0 := by
    rw [inv.active, at']
    rfl
  have moved := inv.moves .idle idle (fun _ absurd => by cases absurd)
    (fun held absurd => by cases absurd)
  have count : Worker.active .idle = s.activeRequests := by
    rw [nobody]
    rfl
  rw [count] at moved
  unfold State.endRequest
  dsimp only
  split_ifs with pending
  · have plain := moved.flags false s.pendingUnload s.loadCancel s.awake s.ttl now
    exact (plain.unloads rfl).1.flags _ _ _ _ _ _
  · exact moved.flags _ _ _ _ _ _

theorem handle_unload_inv (inv : Inv cfg s) : Inv cfg s.handleUnload := by
  unfold State.handleUnload
  split_ifs with during busy
  · exact inv.flags _ _ _ _ _ _
  · exact inv.flags _ _ _ _ _ _
  · have nobody : s.worker.active = 0 := by
      rw [← inv.active]
      omega
    have unheld : s.worker.holding = none := by
      cases at' : s.worker with
      | served held =>
          rw [at'] at nobody
          cases nobody
      | settled held =>
          rw [at'] at nobody
          cases nobody
      | _ => rfl
    exact ((inv.flags false s.pendingUnload s.loadCancel s.awake s.ttl s.lastUsed).unloads
      unheld).1

theorem reap_inv (inv : Inv cfg s) (now : Int) (yielded locked : Bool) :
    Inv cfg (s.reap cfg now yielded locked) := by
  have plain := inv.flags s.draft s.pendingUnload s.loadCancel false s.ttl s.lastUsed
  unfold State.reap
  dsimp only
  split_ifs with free
  · have nobody : s.worker.active = 0 := by
      rw [← inv.active]
      simp only [Bool.and_eq_true, beq_iff_eq] at free
      exact free.1.2
    have unheld : s.worker.holding = none := by
      cases at' : s.worker with
      | served held =>
          rw [at'] at nobody
          cases nobody
      | settled held =>
          rw [at'] at nobody
          cases nobody
      | _ => rfl
    exact (plain.unloads unheld).1
  · exact plain

theorem fire_inv (inv : Inv cfg s) {event : Event} (fired : fire cfg s event = some next) :
    Inv cfg next := by
  cases event with
  | arrive want =>
      simp only [fire] at fired
      split_ifs at fired with free
      cases fired
      have idle : s.loading = false := by
        rw [inv.loading, free]
        rfl
      have moved := inv.moves (.entered want) idle (fun _ absurd => by cases absurd)
        (fun held absurd => by cases absurd)
      have count : s.activeRequests + 1 = (Worker.entered want).active := by
        rw [inv.active, free]
        rfl
      rw [count]
      exact moved
  | swapBegin =>
      simp only [fire] at fired
      split at fired
      · next want at' =>
          split at fired
          · next idx found =>
              cases fired
              exact begin_swap_inv inv at' (lookup_valid found)
          · cases fired
            have idle : s.loading = false := by
              rw [inv.loading, at']
              rfl
            have moved := inv.moves .refused idle (fun _ absurd => by cases absurd)
              (fun held absurd => by cases absurd)
            have count : Worker.active .refused = s.activeRequests := by
              rw [inv.active, at']
              rfl
            rw [count] at moved
            exact moved
      · cases fired
  | swapEnd outcome =>
      simp only [fire] at fired
      split at fired
      · next idx at' =>
          cases fired
          exact end_swap_inv inv at' outcome
      · cases fired
  | keepAlive seconds =>
      simp only [fire] at fired
      split at fired
      · next held at' =>
          cases fired
          exact keep_inv inv at' seconds
      · cases fired
  | leave =>
      have ends : s.activeRequests = 1 → s.loading = false →
          Inv cfg { s with activeRequests := s.activeRequests - 1, worker := .ended } := by
        intro busy idle
        have moved := inv.moves .ended idle (fun _ absurd => by cases absurd)
          (fun held absurd => by cases absurd)
        rw [busy]
        exact moved
      simp only [fire] at fired
      have active := inv.active
      have loading := inv.loading
      split at fired
      · next held at' =>
          rw [at'] at active loading
          cases fired
          exact ends active loading
      · next held at' =>
          rw [at'] at active loading
          cases fired
          exact ends active loading
      · next at' =>
          rw [at'] at active loading
          cases fired
          exact ends active loading
      · cases fired
  | requestEnd now =>
      simp only [fire] at fired
      split_ifs at fired with at'
      cases fired
      exact end_request_inv inv at' now
  | unload =>
      cases fired
      exact handle_unload_inv inv
  | peek =>
      simp only [fire] at fired
      split_ifs at fired
      · cases fired
        exact inv.flags _ _ _ _ _ _
      · cases fired
        exact inv
  | tick now yielded locked =>
      simp only [fire] at fired
      split_ifs at fired
      cases fired
      exact reap_inv inv now yielded locked
  | cancel =>
      cases fired
      exact inv.flags _ _ _ _ _ _

theorem reachable_inv (run : Reachable cfg s) : Inv cfg s :=
  run.invariant (fun _ starts => inv_starts starts) fun _ _ _ inv _ fired => fire_inv inv fired

/-! ## Unloads that were put off -/

/-- An unload or a wish that is only noted. -/
def Deferred (s : State) : Event → Prop
  | .unload => s.loading = true ∨ 0 < s.activeRequests
  | .keepAlive seconds => seconds = 0
  | _ => False

/-- The end of a load or of a request. -/
def SafePoint : Event → Prop
  | .swapEnd _ => True
  | .requestEnd _ => True
  | _ => False

/-- A swap to a known model begins. -/
def Supersedes (cfg : Config) (s : State) : Event → Prop
  | .swapBegin => ∃ want idx, s.worker = .entered want ∧ cfg.lookup want = some idx
  | _ => False

/-- A stretch of a run without a safe point and without a swap that begins. -/
abbrev Quiet (cfg : Config) (first : State) : State → Prop :=
  Reaches (fun s => s = first) (fire cfg) fun s event => ¬ SafePoint event ∧ ¬ Supersedes cfg s event

def Cleared (s : State) : Prop := s.slot = none ∧ s.resident = none ∧ s.draft = false

/-- A load that an unload has cancelled. -/
structure Cancelled (draft : Bool) (s : State) : Prop where
  pending : s.pendingUnload = true
  loading : s.loading = true
  draft : s.draft = draft

/-- Between a deferred unload and the end of the request. -/
structure Owed (s : State) : Prop where
  pending : s.pendingUnload = true
  loading : s.loading = false

theorem in_load (inv : Inv cfg s) (loading : s.loading = true) : ∃ idx, s.worker = .loading idx := by
  rw [inv.loading] at loading
  cases at' : s.worker with
  | loading idx => exact ⟨idx, rfl⟩
  | _ =>
      rw [at'] at loading
      cases loading

theorem cancelled_kept {draft : Bool} {event : Event} (inv : Inv cfg s)
    (cancelled : Cancelled draft s) (quiet : ¬ SafePoint event)
    (fired : fire cfg s event = some next) : Cancelled draft next := by
  rcases in_load inv cancelled.loading with ⟨idx, at'⟩
  have nobody : s.resident = none := by
    rw [inv.resident, inv.empty cancelled.loading]
    rfl
  cases event with
  | unload =>
      cases fired
      unfold State.handleUnload
      rw [if_pos cancelled.loading]
      exact ⟨rfl, cancelled.loading, cancelled.draft⟩
  | peek =>
      simp only [fire, nobody, Option.isSome_none, Bool.false_and] at fired
      cases fired
      exact cancelled
  | tick now yielded locked =>
      simp only [fire] at fired
      split_ifs at fired
      cases fired
      unfold State.reap
      simp only [nobody, Option.isSome_none, Bool.and_false, Bool.false_and]
      exact ⟨cancelled.pending, cancelled.loading, cancelled.draft⟩
  | cancel =>
      cases fired
      exact ⟨cancelled.pending, cancelled.loading, cancelled.draft⟩
  | swapEnd outcome => exact absurd trivial quiet
  | requestEnd now => exact absurd trivial quiet
  | arrive want => simp [fire, at'] at fired
  | swapBegin => simp [fire, at'] at fired
  | keepAlive seconds => simp [fire, at'] at fired
  | leave => simp [fire, at'] at fired

theorem Owed.unloads (owed : Owed s) : Owed s.unloadResident :=
  ⟨unload_resident_pending.trans owed.pending, unload_resident_loading.trans owed.loading⟩

theorem owed_kept {event : Event} (owed : Owed s) (quiet : ¬ SafePoint event)
    (alone : ¬ Supersedes cfg s event) (fired : fire cfg s event = some next) : Owed next := by
  have pending := owed.pending
  have loading := owed.loading
  cases event with
  | arrive want =>
      simp only [fire] at fired
      split_ifs at fired
      cases fired
      exact ⟨pending, loading⟩
  | swapBegin =>
      simp only [fire] at fired
      split at fired
      · next want at' =>
          split at fired
          · next idx found => exact absurd ⟨want, idx, at', found⟩ alone
          · cases fired
            exact ⟨pending, loading⟩
      · cases fired
  | swapEnd outcome => exact absurd trivial quiet
  | keepAlive seconds =>
      simp only [fire] at fired
      split at fired
      · cases fired
        unfold State.keep
        split_ifs
        · exact ⟨rfl, loading⟩
        · exact ⟨pending, loading⟩
        · exact ⟨pending, loading⟩
      · cases fired
  | leave =>
      simp only [fire] at fired
      split at fired
      · cases fired
        exact ⟨pending, loading⟩
      · cases fired
        exact ⟨pending, loading⟩
      · cases fired
        exact ⟨pending, loading⟩
      · cases fired
  | requestEnd now => exact absurd trivial quiet
  | unload =>
      cases fired
      unfold State.handleUnload
      split_ifs with during busy
      · exact ⟨rfl, loading⟩
      · exact ⟨rfl, loading⟩
      · exact Owed.unloads ⟨pending, loading⟩
  | peek =>
      simp only [fire] at fired
      split_ifs at fired
      · cases fired
        exact ⟨pending, loading⟩
      · cases fired
        exact owed
  | tick now yielded locked =>
      simp only [fire] at fired
      split_ifs at fired
      cases fired
      unfold State.reap
      dsimp only
      split_ifs
      · exact Owed.unloads ⟨pending, loading⟩
      · exact ⟨pending, loading⟩
  | cancel =>
      cases fired
      exact ⟨pending, loading⟩

/-- What a deferred unload finds at the safe point of a load: nothing but the draft. -/
theorem cancelled_ends {draft : Bool} {event : Event} (inv : Inv cfg s)
    (cancelled : Cancelled draft s) (safe : SafePoint event)
    (fired : fire cfg s event = some next) :
    next.slot = none ∧ next.resident = none ∧ next.draft = draft := by
  rcases in_load inv cancelled.loading with ⟨idx, at'⟩
  have slot := inv.empty cancelled.loading
  have nobody : s.resident = none := by
    rw [inv.resident, slot]
    rfl
  cases event with
  | swapEnd outcome =>
      simp only [fire, at', Option.some.injEq] at fired
      rw [← fired]
      unfold State.endSwap
      simp only [cancelled.pending, Bool.true_or, Bool.or_true, if_true]
      split_ifs
      · exact ⟨slot, nobody, cancelled.draft⟩
      · exact ⟨slot, nobody, cancelled.draft⟩
  | requestEnd now =>
      simp only [fire, at'] at fired
      cases fired
  | _ => exact absurd safe (fun absurd => absurd)

theorem owed_ends {event : Event} (inv : Inv cfg s) (owed : Owed s) (safe : SafePoint event)
    (fired : fire cfg s event = some next) : Cleared next := by
  cases event with
  | swapEnd outcome =>
      simp only [fire] at fired
      split at fired
      · next idx at' =>
          have during : s.loading = true := by
            rw [inv.loading, at']
            rfl
          rw [owed.loading] at during
          cases during
      · cases fired
  | requestEnd now =>
      simp only [fire] at fired
      split_ifs at fired with at'
      cases fired
      have nobody : s.activeRequests = 0 := by
        rw [inv.active, at']
        rfl
      have moved := inv.moves .idle owed.loading (fun _ absurd => by cases absurd)
        (fun held absurd => by cases absurd)
      have count : Worker.active .idle = s.activeRequests := by
        rw [nobody]
        rfl
      rw [count] at moved
      have plain := moved.flags false s.pendingUnload s.loadCancel s.awake s.ttl now
      have emptied := plain.unloads rfl
      unfold State.endRequest
      dsimp only
      split_ifs with settles
      · refine ⟨emptied.2.1, emptied.2.2, ?_⟩
        exact unload_resident_draft
      · rw [owed.pending, owed.loading, nobody] at settles
        exact absurd rfl settles
  | _ => exact absurd safe (fun absurd => absurd)


/-- What a deferred unload notes. -/
theorem deferred_notes {event : Event} (inv : Inv cfg s) (deferred : Deferred s event)
    (fired : fire cfg s event = some next) :
    (s.loading = true ∧ Cancelled s.draft next) ∨ (s.loading = false ∧ Owed next) := by
  cases event with
  | unload =>
      cases fired
      unfold State.handleUnload
      split_ifs with during busy
      · exact Or.inl ⟨during, rfl, during, rfl⟩
      · have idle : s.loading = false := by simpa using during
        exact Or.inr ⟨idle, rfl, idle⟩
      · rcases deferred with during' | busy'
        · exact absurd during' during
        · exact absurd busy' busy
  | keepAlive seconds =>
      have zero : seconds = 0 := deferred
      simp only [fire] at fired
      split at fired
      · next held at' =>
          cases fired
          have idle : s.loading = false := by
            rw [inv.loading, at']
            rfl
          unfold State.keep
          rw [if_pos zero]
          exact Or.inr ⟨idle, rfl, idle⟩
      · cases fired
  | _ => exact absurd deferred (fun absurd => absurd)

/-- A deferred unload leaves nothing behind at the next safe point exactly if it was not put
off to the end of a load while a draft was resident. -/
theorem deferred_iff {after before : State} {event safe : Event} (run : Reachable cfg s)
    (deferred : Deferred s event) (fired : fire cfg s event = some after)
    (quiet : Quiet cfg after before) (point : SafePoint safe)
    (ends : fire cfg before safe = some next) :
    Cleared next ↔ ¬(s.loading = true ∧ s.draft = true) := by
  have inv := reachable_inv run
  have inv' := fire_inv inv fired
  rcases deferred_notes inv deferred fired with ⟨during, cancelled⟩ | ⟨idle, owed⟩
  · have kept : Inv cfg before ∧ Cancelled s.draft before := by
      apply quiet.invariant
      · intro first same
        rw [same]
        exact ⟨inv', cancelled⟩
      · intro one two between holds met moved
        exact ⟨fire_inv holds.1 moved, cancelled_kept holds.1 holds.2 met.1 moved⟩
    have left := cancelled_ends kept.1 kept.2 point ends
    unfold Cleared
    rw [left.1, left.2.1, left.2.2, during]
    cases s.draft <;> simp
  · have kept : Inv cfg before ∧ Owed before := by
      apply quiet.invariant
      · intro first same
        rw [same]
        exact ⟨inv', owed⟩
      · intro one two between holds met moved
        exact ⟨fire_inv holds.1 moved, owed_kept holds.2 met.1 met.2 moved⟩
    have cleared := owed_ends kept.1 kept.2 point ends
    rw [idle]
    constructor
    · intro _ absurd
      cases absurd.1
    · intro _
      exact cleared

/-! ## The machine over every run -/

/-- The model a request was given is in the slot and has not been freed. -/
def Intact (s : State) : Prop :=
  ∀ held, s.worker.holding = some held →
    ∃ m, held = some m ∧ s.slot = some m ∧ m.serial ∉ s.freed

/-- The resident index is an entry of the registry, and the entry of the model in the slot. -/
def Named (cfg : Config) (s : State) : Prop :=
  (∀ idx, s.resident = some idx ↔ ∃ m, s.slot = some m ∧ m.index = idx) ∧
    ∀ idx, s.resident = some idx → idx < cfg.reg.length

/-- A deferred unload leaves neither a model nor a draft at the next safe point. -/
def CarriedOut (cfg : Config) (s : State) : Prop :=
  ∀ event after before safe next, Deferred s event → fire cfg s event = some after →
    Quiet cfg after before → SafePoint safe → fire cfg before safe = some next → Cleared next

theorem inv_intact (inv : Inv cfg s) : Intact s := by
  intro held holds
  rcases inv.holding held holds with ⟨slot, loaded⟩
  rcases Option.isSome_iff_exists.mp loaded with ⟨m, same⟩
  rw [same] at slot
  exact ⟨m, same, slot, (inv.valid m slot).2.2⟩

theorem inv_named (inv : Inv cfg s) : Named cfg s := by
  constructor
  · intro idx
    rw [inv.resident, Option.map_eq_some_iff]
  · intro idx resident
    rw [inv.resident, Option.map_eq_some_iff] at resident
    rcases resident with ⟨m, slot, same⟩
    rw [← same]
    exact (inv.valid m slot).1

/-- In every state of every run the request's model is intact and the resident index names
the slot; and a deferred unload is carried out exactly if it was not put off to the end of a
load while a draft was resident. -/
theorem residency_runs (cfg : Config) (s : State) (run : Reachable cfg s) :
    Intact s ∧ Named cfg s ∧
      ∀ event after before safe next, Deferred s event → fire cfg s event = some after →
        Quiet cfg after before → SafePoint safe → fire cfg before safe = some next →
        (Cleared next ↔ ¬(s.loading = true ∧ s.draft = true)) := by
  have inv := reachable_inv run
  refine ⟨inv_intact inv, inv_named inv, ?_⟩
  intro event after before safe next deferred fired quiet point ends
  exact deferred_iff run deferred fired quiet point ends

/-- One model, with a draft or without. -/
def oneModel : Config where
  reg := ["m"]
  registered := by decide
  single := true
  draftPath := true
  yieldOnRequest := false

def preloaded (draft : Bool) : State where
  slot := some { index := 0, serial := 0 }
  resident := some 0
  draft := draft
  loading := false
  pendingUnload := false
  loadCancel := false
  activeRequests := 0
  ttl := 5
  lastUsed := 0
  born := 1
  freed := []
  worker := .idle
  awake := false

/-- The model has idled away and a request is loading it again. -/
def reloading (draft : Bool) : State where
  slot := none
  resident := none
  draft := draft
  loading := true
  pendingUnload := false
  loadCancel := false
  activeRequests := 1
  ttl := 5
  lastUsed := 0
  born := 1
  freed := [0]
  worker := .loading 0
  awake := false

theorem reloading_reachable (draft : Bool) : Reachable oneModel (reloading draft) := by
  have begun : Reachable oneModel (preloaded draft) := by
    apply Reaches.start
    exact ⟨rfl, rfl, rfl, rfl, rfl, rfl, Or.inr ⟨rfl, rfl, rfl, rfl⟩⟩
  have peeked := Reaches.step _ _ .peek begun trivial rfl
  have reaped := Reaches.step _ _ (.tick 10 false true) peeked trivial rfl
  have asked := Reaches.step _ _ (.arrive none) reaped trivial rfl
  exact Reaches.step _ _ .swapBegin asked trivial rfl

def loads : Outcome := ⟨true, true, false, true, true⟩

/-- Without a draft the unload that cancels the load leaves nothing. -/
theorem cancelled_load_cleared :
    Cleared ((reloading false).handleUnload.endSwap oneModel 0 loads) := by
  have runs := residency_runs oneModel (reloading false) (reloading_reachable false)
  apply (runs.2.2 .unload (reloading false).handleUnload (reloading false).handleUnload
    (.swapEnd loads) _ (Or.inl rfl) rfl (Reaches.start _ rfl) trivial rfl).mpr
  intro both
  cases both.2

/-- With a draft it leaves the draft. -/
theorem cancelled_load_keeps_draft :
    ¬∀ cfg s, Reachable cfg s → Intact s ∧ Named cfg s ∧ CarriedOut cfg s := by
  intro promised
  have carried := (promised oneModel (reloading true) (reloading_reachable true)).2.2
  have cleared := carried .unload (reloading true).handleUnload (reloading true).handleUnload
    (.swapEnd loads) _ (Or.inl rfl) rfl (Reaches.start _ rfl) trivial rfl
  cases cleared.2.2

end GridcoreRunner.Server
