import GridcoreRunner.Server.Scheduler

/-!
# What every section of the scheduler keeps

A slot that waits is in no microbatch, or its entry is in the one in hand, or its row has
come home. Every submission is in one microbatch, or was dropped, or was given up when the
scheduler stopped, or waits; and the count of waiting sequences is right.
-/

namespace GridcoreRunner.Scheduler

open GridcoreRunner.Causal GridcoreRunner.Generation GridcoreRunner.Table GridcoreRunner.Runs

set_option autoImplicit false

variable {V σ κ Row Fold Logits : Type*}
variable {cfg : Config} {s next : State V σ κ Row Fold Logits}

/-- What the slots see of the decode thread and of the past. -/
structure View (Logits : Type*) where
  batch : List Entry
  home : Bool
  cuts : List (List Entry)
  rows : List (Entry × Logits)
  stop : Bool

def State.view (s : State V σ κ Row Fold Logits) : View Logits where
  batch := s.worker.batch
  home := s.worker.home
  cuts := s.cuts
  rows := s.rows
  stop := s.stop

/-- The submissions of a slot that are in a microbatch. -/
def subsOf (cuts : List (List Entry)) (i : Nat) : List Nat :=
  (cuts.flatten.filter fun entry => entry.slot == i).map Entry.sub

def Absent (v : View Logits) (i : Nat) : Prop := i ∉ v.batch.map Entry.slot

/-- The row of this entry has come home to this sequence. -/
def Home (v : View Logits) (q : Seq Logits) (entry : Entry) : Prop :=
  ∃ row, q.logits = some row ∧ (entry, row) ∈ v.rows

/-- Where a waiting sequence is. -/
inductive Underway (v : View Logits) (i : Nat) (q : Seq Logits) (entry : Entry) : Prop
  | wait (state : q.state = .wait) (absent : Absent v i)
  | inflight (state : q.state = .inflight) (taken : entry ∈ v.batch)
      (home : v.home = true → Home v q entry)
  | ready (state : q.state = .ready) (absent : Absent v i) (home : q.ok = true → Home v q entry)

def Point.isWaiting : Point Logits → Bool
  | .waiting _ _ => true
  | _ => false

/-- Whether the request may still submit. -/
def Point.isOpen : Point Logits → Bool
  | .entered | .stepping _ | .handed _ _ | .submitting _ _ | .waiting _ _ => true
  | _ => false

def ownEntry (i : Nat) (slot : Slot V σ κ Row Fold Logits) (number tok pos : Nat) : Entry where
  slot := i
  sub := slot.submitted
  request := number
  tok := tok
  pos := pos

structure SlotInv (v : View Logits) (i : Nat) (q : Seq Logits)
    (slot : Slot V σ κ Row Fold Logits) : Prop where
  waiting : ∀ job tok pos, slot.job = some job → job.point = .waiting tok pos →
    q.tok = tok ∧ q.pos = pos ∧ Underway v i q (ownEntry i slot job.number tok pos)
  stepping : ∀ job, slot.job = some job → job.point = .stepping none → Absent v i ∧
    Home v q (ownEntry i slot job.number q.tok q.pos)
  waits : q.state = .wait → ∃ job, slot.job = some job ∧ job.point.isWaiting = true
  rests : v.stop = false → (∀ job, slot.job = some job → job.point.isWaiting = false) →
    q.state = .off ∧ Absent v i
  number : ∀ job, slot.job = some job → job.number < slot.arrived
  closed : ∀ r ∈ slot.droppedRequests, r < slot.arrived
  stays : ∀ job, slot.job = some job → job.point.isOpen = true →
    job.number ∉ slot.droppedRequests
  once : (subsOf v.cuts i).Nodup
  cut : ∀ k ∈ subsOf v.cuts i, k ≤ slot.submitted
  fresh : q.state = .wait → slot.submitted ∉ subsOf v.cuts i ∧ slot.submitted ∉ slot.dropped ∧
    slot.submitted ∉ slot.abandoned
  dropped : ∀ k ∈ slot.dropped, k ≤ slot.submitted ∧ k ∉ subsOf v.cuts i
  abandoned : ∀ k ∈ slot.abandoned, v.stop = true ∧ k ≤ slot.submitted ∧ k ∉ subsOf v.cuts i
  covered : ∀ k, 1 ≤ k → k ≤ slot.submitted → k ∈ subsOf v.cuts i ∨ k ∈ slot.dropped ∨
    k ∈ slot.abandoned ∨ (k = slot.submitted ∧ q.state = .wait)

def isWait (q : Seq Logits) : Bool := decide (q.state = .wait)

structure Inv (cfg : Config) (s : State V σ κ Row Fold Logits) : Prop where
  slots : ∀ i, SlotInv s.view i (s.seq i) (s.slot i)
  batch : (s.worker.batch.map Entry.slot).Nodup
  inside : ∀ entry ∈ s.worker.batch, entry.slot < cfg.nSlots
  taken : ∀ entry ∈ s.worker.batch, entry ∈ s.cuts.flatten
  rows : ∀ entry row, (entry, row) ∈ s.rows → entry ∈ s.cuts.flatten
  beyond : ∀ i, cfg.nSlots ≤ i → (s.seq i).state ≠ .wait
  nWait : s.stop = false → s.nWait = count isWait cfg.nSlots s.seq

/-! ## Changes to one slot -/

/-- A change to one slot that leaves the decode thread and the other slots alone. -/
structure Local (s next : State V σ κ Row Fold Logits) (i : Nat) : Prop where
  view : next.view = s.view
  worker : next.worker = s.worker
  cuts : next.cuts = s.cuts
  rows : next.rows = s.rows
  stop : next.stop = s.stop
  seq : ∀ j, j ≠ i → next.seq j = s.seq j
  slot : ∀ j, j ≠ i → next.slot j = s.slot j

theorem Inv.change (inv : Inv cfg s) {i : Nat} (inside : i < cfg.nSlots) (change : Local s next i)
    (here : SlotInv s.view i (next.seq i) (next.slot i))
    (nWait : s.stop = false → next.nWait = count isWait cfg.nSlots next.seq) : Inv cfg next where
  slots j := by
    rw [change.view]
    by_cases same : j = i
    · rw [same]
      exact here
    · rw [change.seq j same, change.slot j same]
      exact inv.slots j
  batch := by
    rw [change.worker]
    exact inv.batch
  inside := by
    rw [change.worker]
    exact inv.inside
  taken := by
    rw [change.worker, change.cuts]
    exact inv.taken
  rows := by
    rw [change.rows, change.cuts]
    exact inv.rows
  beyond j out := by
    rw [change.seq j (by omega)]
    exact inv.beyond j out
  nWait running := by
    rw [change.stop] at running
    exact nWait running

theorem Local.trans {middle : State V σ κ Row Fold Logits} {i : Nat} (first : Local s middle i)
    (second : Local middle next i) : Local s next i where
  view := second.view.trans first.view
  worker := second.worker.trans first.worker
  cuts := second.cuts.trans first.cuts
  rows := second.rows.trans first.rows
  stop := second.stop.trans first.stop
  seq j other := (second.seq j other).trans (first.seq j other)
  slot j other := (second.slot j other).trans (first.slot j other)

/-- A thread that moves between two points where it waits for nothing. -/
theorem SlotInv.moves {v : View Logits} {i : Nat} {q : Seq Logits}
    {slot : Slot V σ κ Row Fold Logits} {job job' : Job V σ κ Row Fold Logits}
    (inv : SlotInv v i q slot) (before : slot.job = some job)
    (awake : job.point.isWaiting = false) (awake' : job'.point.isWaiting = false)
    (number : job'.number = job.number)
    (opened : job'.point.isOpen = true → job.point.isOpen = true)
    (prompted : job'.point ≠ .stepping none) : SlotInv v i q { slot with job := some job' } where
  waiting job'' tok pos same at' := by
    cases same
    rw [at'] at awake'
    cases awake'
  stepping job'' same at' := by
    cases same
    exact absurd at' prompted
  waits state := by
    rcases inv.waits state with ⟨other, same, waits⟩
    rw [before] at same
    cases same
    rw [awake] at waits
    cases waits
  rests running _ := by
    apply inv.rests running
    intro other same
    rw [before] at same
    cases same
    exact awake
  number job'' same := by
    cases same
    rw [number]
    exact inv.number job before
  closed := inv.closed
  stays job'' same open' := by
    cases same
    rw [number]
    exact inv.stays job before (opened open')
  once := inv.once
  cut := inv.cut
  fresh := inv.fresh
  dropped := inv.dropped
  abandoned := inv.abandoned
  covered := inv.covered

theorem set_job_local (i : Nat) (job : Job V σ κ Row Fold Logits) : Local s (s.setJob i job) i where
  view := rfl
  worker := rfl
  cuts := rfl
  rows := rfl
  stop := rfl
  seq _ _ := rfl
  slot _ other := Function.update_of_ne other _ _

/-- A thread moves between two points, and the counters the waiting does not depend on
change. -/
theorem Inv.moves (inv : Inv cfg s) {i : Nat} (inside : i < cfg.nSlots)
    {job job' : Job V σ κ Row Fold Logits} (before : (s.slot i).job = some job)
    (awake : job.point.isWaiting = false) (awake' : job'.point.isWaiting = false)
    (number : job'.number = job.number)
    (opened : job'.point.isOpen = true → job.point.isOpen = true)
    (prompted : job'.point ≠ .stepping none) : Inv cfg (s.setJob i job') := by
  apply inv.change inside (set_job_local i job')
  · show SlotInv s.view i (s.seq i) (Function.update s.slot i _ i)
    rw [Function.update_self]
    exact (inv.slots i).moves before awake awake' number opened prompted
  · exact inv.nWait

/-- The counters that no waiting depends on. -/
theorem Inv.counters (inv : Inv cfg s) (nActive : Int) (devNext devServing : Nat) :
    Inv cfg { s with nActive := nActive, devNext := devNext, devServing := devServing } where
  slots := inv.slots
  batch := inv.batch
  inside := inv.inside
  taken := inv.taken
  rows := inv.rows
  beyond := inv.beyond
  nWait := inv.nWait

/-- A slot that is done with its request. -/
theorem Inv.leaves (inv : Inv cfg s) {i : Nat} (inside : i < cfg.nSlots)
    {job : Job V σ κ Row Fold Logits} (before : (s.slot i).job = some job)
    (awake : job.point.isWaiting = false)
    (results : List (Request V σ κ Row Fold Logits × Engine V σ κ Row Fold × Nat)) :
    Inv cfg { s with slot := Function.update s.slot i { s.slot i with
      job := none
      results := results } } := by
  apply inv.change inside
  · constructor
    · rfl
    · rfl
    · rfl
    · rfl
    · rfl
    · intro _ _
      rfl
    · intro j other
      exact Function.update_of_ne other _ _
  · show SlotInv s.view i (s.seq i) (Function.update s.slot i _ i)
    rw [Function.update_self]
    have here := inv.slots i
    constructor
    · intro other tok pos absurd
      cases absurd
    · intro other absurd
      cases absurd
    · intro state
      rcases here.waits state with ⟨other, same, waits⟩
      rw [before] at same
      cases same
      rw [awake] at waits
      cases waits
    · intro running _
      apply here.rests running
      intro other same
      rw [before] at same
      cases same
      exact awake
    · intro other absurd
      cases absurd
    · exact here.closed
    · intro other absurd
      cases absurd
    · exact here.once
    · exact here.cut
    · exact here.fresh
    · exact here.dropped
    · exact here.abandoned
    · exact here.covered
  · exact inv.nWait

theorem arrive_inv (inv : Inv cfg s) {i : Nat} (inside : i < cfg.nSlots)
    {request : Request V σ κ Row Fold Logits} (fired : arrive s i request = some next) :
    Inv cfg next := by
  unfold arrive at fired
  cases idle : (s.slot i).job with
  | some job =>
      rw [idle] at fired
      cases fired
  | none =>
      rw [idle] at fired
      cases fired
      apply inv.change inside
      · constructor
        · rfl
        · rfl
        · rfl
        · rfl
        · rfl
        · intro _ _
          rfl
        · intro j other
          exact Function.update_of_ne other _ _
      · show SlotInv s.view i (s.seq i) (Function.update s.slot i _ i)
        rw [Function.update_self]
        have here := inv.slots i
        constructor
        · intro other tok pos same at'
          cases same
          cases at'
        · intro other same at'
          cases same
          cases at'
        · intro state
          rcases here.waits state with ⟨other, same, _⟩
          rw [idle] at same
          cases same
        · intro running _
          apply here.rests running
          intro other same
          rw [idle] at same
          cases same
        · intro other same
          cases same
          exact Nat.lt_succ_self _
        · intro r closed
          exact Nat.lt_succ_of_lt (here.closed r closed)
        · intro other same _ closed
          cases same
          exact Nat.lt_irrefl _ (here.closed _ closed)
        · exact here.once
        · exact here.cut
        · exact here.fresh
        · exact here.dropped
        · exact here.abandoned
        · exact here.covered
      · exact inv.nWait

/-! ## The sections of `sched_forward` -/

/-- The state of one sequence changes, and with it what it counts for. -/
theorem count_state (inv : Inv cfg s) {i : Nat} (inside : i < cfg.nSlots) (running : s.stop = false)
    (q : Seq Logits) : s.nWait + (if isWait q then 1 else 0) =
      count isWait cfg.nSlots (Function.update s.seq i q) + (if isWait (s.seq i) then 1 else 0) := by
  have counted := inv.nWait running
  have changed := count_update isWait inside s.seq q
  rw [counted]
  split_ifs at changed ⊢ <;> omega

theorem drop_local (i : Nat) (job : Job V σ κ Row Fold Logits) : Local s (s.drop i job) i where
  view := rfl
  worker := rfl
  cuts := rfl
  rows := rfl
  stop := rfl
  seq _ other := Function.update_of_ne other _ _
  slot _ other := Function.update_of_ne other _ _

theorem answer_local (i : Nat) (job : Job V σ κ Row Fold Logits) : Local s (s.answer i job) i where
  view := rfl
  worker := rfl
  cuts := rfl
  rows := rfl
  stop := rfl
  seq _ other := Function.update_of_ne other _ _
  slot _ other := Function.update_of_ne other _ _

/-- A sequence that leaves the wait without a row: dropped, or given up. -/
theorem SlotInv.leavesWait {v : View Logits} {i : Nat} {q : Seq Logits}
    {slot slot' : Slot V σ κ Row Fold Logits} {job job' : Job V σ κ Row Fold Logits}
    (inv : SlotInv v i q slot) (before : slot.job = some job) (after : slot'.job = some job')
    (number : job'.number = job.number) (ended : job'.point = .ending)
    (arrived : slot'.arrived = slot.arrived) (submitted : slot'.submitted = slot.submitted)
    (absent : v.stop = false → Absent v i)
    (closed : ∀ r ∈ slot'.droppedRequests, r = job.number ∨ r ∈ slot.droppedRequests)
    (dropped : ∀ k ∈ slot'.dropped, (k = slot.submitted ∧ q.state = .wait) ∨ k ∈ slot.dropped)
    (abandoned : ∀ k ∈ slot'.abandoned,
      (k = slot.submitted ∧ q.state = .wait ∧ v.stop = true) ∨ k ∈ slot.abandoned)
    (kept : ∀ k, k ∈ slot.dropped ∨ k ∈ slot.abandoned ∨ (k = slot.submitted ∧ q.state = .wait) →
      k ∈ slot'.dropped ∨ k ∈ slot'.abandoned) :
    SlotInv v i { q with state := .off } slot' where
  waiting other tok pos same at' := by
    rw [after] at same
    cases same
    rw [ended] at at'
    cases at'
  stepping other same at' := by
    rw [after] at same
    cases same
    rw [ended] at at'
    cases at'
  waits state := by cases state
  rests running _ := ⟨rfl, absent running⟩
  number other same := by
    rw [after] at same
    cases same
    rw [number, arrived]
    exact inv.number job before
  closed r inside := by
    rw [arrived]
    rcases closed r inside with same | old
    · rw [same]
      exact inv.number job before
    · exact inv.closed r old
  stays other same open' := by
    rw [after] at same
    cases same
    rw [ended] at open'
    cases open'
  once := inv.once
  cut k inside := by
    rw [submitted]
    exact inv.cut k inside
  fresh state := by cases state
  dropped k inside := by
    rw [submitted]
    rcases dropped k inside with ⟨same, state⟩ | old
    · rw [same]
      exact ⟨Nat.le_refl _, (inv.fresh state).1⟩
    · exact inv.dropped k old
  abandoned k inside := by
    rw [submitted]
    rcases abandoned k inside with ⟨same, state, stopped⟩ | old
    · rw [same]
      exact ⟨stopped, Nat.le_refl _, (inv.fresh state).1⟩
    · exact inv.abandoned k old
  covered k least most := by
    rw [submitted] at most
    rcases inv.covered k least most with taken | out | out | ⟨same, state⟩
    · exact Or.inl taken
    · rcases kept k (Or.inl out) with one | two
      · exact Or.inr (Or.inl one)
      · exact Or.inr (Or.inr (Or.inl two))
    · rcases kept k (Or.inr (Or.inl out)) with one | two
      · exact Or.inr (Or.inl one)
      · exact Or.inr (Or.inr (Or.inl two))
    · rcases kept k (Or.inr (Or.inr ⟨same, state⟩)) with one | two
      · exact Or.inr (Or.inl one)
      · exact Or.inr (Or.inr (Or.inl two))

theorem drop_inv (inv : Inv cfg s) {i : Nat} (inside : i < cfg.nSlots)
    {job : Job V σ κ Row Fold Logits} {tok pos : Nat} (before : (s.slot i).job = some job)
    (at' : job.point = .waiting tok pos) (running : s.stop = false)
    (state : (s.seq i).state = .wait) : Inv cfg (s.drop i job) := by
  have here := inv.slots i
  have way := here.waiting job tok pos before at'
  apply inv.change inside (drop_local i job)
  · show SlotInv s.view i (Function.update s.seq i _ i) (Function.update s.slot i _ i)
    rw [Function.update_self, Function.update_self]
    refine here.leavesWait before rfl rfl rfl rfl rfl ?_ ?_ ?_ ?_ ?_
    · intro _
      rcases way.2.2 with ⟨_, absent⟩ | ⟨other, _, _⟩ | ⟨other, _, _⟩
      · exact absent
      · rw [state] at other
        cases other
      · rw [state] at other
        cases other
    · intro r inside'
      rcases List.mem_cons.mp inside' with same | old
      · exact Or.inl same
      · exact Or.inr old
    · intro k inside'
      rcases List.mem_cons.mp inside' with same | old
      · exact Or.inl ⟨same, state⟩
      · exact Or.inr old
    · intro k old
      exact Or.inr old
    · intro k old
      rcases old with out | out | ⟨same, _⟩
      · exact Or.inl (List.mem_cons_of_mem _ out)
      · exact Or.inr out
      · rw [same]
        exact Or.inl List.mem_cons_self
  · intro _
    have counted := count_state inv inside running { s.seq i with state := .off }
    have waiting : isWait (s.seq i) = true := decide_eq_true state
    have off : isWait { s.seq i with state := .off } = false := rfl
    rw [waiting, off, if_pos rfl, if_neg Bool.false_ne_true] at counted
    show s.nWait - 1 = (count isWait cfg.nSlots
      (Function.update s.seq i { s.seq i with state := .off }) : Int)
    omega

/-- A sequence that stopped while it waited. -/
theorem answer_stopped_inv (inv : Inv cfg s) {i : Nat} (inside : i < cfg.nSlots)
    {job : Job V σ κ Row Fold Logits} (before : (s.slot i).job = some job)
    (stopped : s.stop = true) (state : (s.seq i).state = .wait) : Inv cfg (s.answer i job) := by
  have here := inv.slots i
  have refused : s.answered i = false := by
    unfold State.answered
    rw [state]
    rfl
  apply inv.change inside (answer_local i job)
  · show SlotInv s.view i (Function.update s.seq i _ i) (Function.update s.slot i _ i)
    rw [Function.update_self, Function.update_self, refused, if_pos state]
    refine here.leavesWait before rfl rfl rfl rfl rfl ?_ ?_ ?_ ?_ ?_
    · intro running
      rw [show s.view.stop = s.stop from rfl, stopped] at running
      cases running
    · intro r old
      exact Or.inr old
    · intro k old
      exact Or.inr old
    · intro k inside'
      rcases List.mem_cons.mp inside' with same | old
      · exact Or.inl ⟨same, state, stopped⟩
      · exact Or.inr old
    · intro k old
      rcases old with out | out | ⟨same, _⟩
      · exact Or.inl out
      · exact Or.inr (List.mem_cons_of_mem _ out)
      · rw [same]
        exact Or.inr List.mem_cons_self
  · intro running
    rw [stopped] at running
    cases running

theorem answer_inv (inv : Inv cfg s) {i : Nat} (inside : i < cfg.nSlots)
    {job : Job V σ κ Row Fold Logits} {tok pos : Nat} (before : (s.slot i).job = some job)
    (at' : job.point = .waiting tok pos)
    (ended : (s.seq i).state = .ready ∨ s.stop = true) : Inv cfg (s.answer i job) := by
  by_cases waits : (s.seq i).state = .wait
  · have stopped : s.stop = true := by
      rcases ended with ready | stopped
      · rw [waits] at ready
        cases ready
      · exact stopped
    exact answer_stopped_inv inv inside before stopped waits
  · have here := inv.slots i
    have way := here.waiting job tok pos before at'
    have kept : ∀ k, k ∈ (s.slot i).dropped ∨ k ∈ (s.slot i).abandoned ∨
        (k = (s.slot i).submitted ∧ (s.seq i).state = .wait) →
        k ∈ (s.slot i).dropped ∨ k ∈ (s.slot i).abandoned := by
      intro k old
      rcases old with out | out | ⟨_, state⟩
      · exact Or.inl out
      · exact Or.inr out
      · exact absurd state waits
    apply inv.change inside (answer_local i job)
    · show SlotInv s.view i (Function.update s.seq i _ i) (Function.update s.slot i _ i)
      rw [Function.update_self, Function.update_self, if_neg waits]
      cases answered : s.answered i with
      | true =>
          rw [if_pos rfl]
          unfold State.answered at answered
          rw [Bool.and_eq_true, decide_eq_true_eq] at answered
          rcases way.2.2 with ⟨other, _⟩ | ⟨other, _, _⟩ | ⟨_, absent, home⟩
          · exact absurd other waits
          · rw [answered.1] at other
            cases other
          · constructor
            · intro other tok' pos' same absurd
              cases same
              cases absurd
            · intro other same _
              cases same
              refine ⟨absent, ?_⟩
              have row := home answered.2
              rw [← way.1, ← way.2.1] at row
              exact row
            · intro absurd
              cases absurd
            · intro _ _
              exact ⟨rfl, absent⟩
            · intro other same
              cases same
              exact here.number job before
            · exact here.closed
            · intro other same _
              cases same
              apply here.stays job before
              rw [at']
              rfl
            · exact here.once
            · exact here.cut
            · intro absurd
              cases absurd
            · exact here.dropped
            · exact here.abandoned
            · intro k least most
              rcases here.covered k least most with taken | out | out | ⟨_, state⟩
              · exact Or.inl taken
              · exact Or.inr (Or.inl out)
              · exact Or.inr (Or.inr (Or.inl out))
              · exact absurd state waits
      | false =>
          rw [if_neg Bool.false_ne_true]
          refine here.leavesWait before rfl rfl rfl rfl rfl ?_ ?_ ?_ ?_ ?_
          · intro running
            have ready : (s.seq i).state = .ready := by
              rcases ended with ready | stopped
              · exact ready
              · rw [show s.view.stop = s.stop from rfl, stopped] at running
                cases running
            rcases way.2.2 with ⟨other, _⟩ | ⟨other, _, _⟩ | ⟨_, absent, _⟩
            · exact absurd other waits
            · rw [ready] at other
              cases other
            · exact absent
          · intro r old
            exact Or.inr old
          · intro k old
            exact Or.inr old
          · intro k old
            exact Or.inr old
          · exact kept
    · intro running
      have counted := count_state inv inside running { s.seq i with state := .off }
      have waiting : isWait (s.seq i) = false := decide_eq_false waits
      have off : isWait { s.seq i with state := .off } = false := rfl
      rw [waiting, off, if_neg Bool.false_ne_true] at counted
      show s.nWait = (count isWait cfg.nSlots
        (Function.update s.seq i { s.seq i with state := .off }) : Int)
      omega

theorem forward_turn_inv (inv : Inv cfg s) {i : Nat} (inside : i < cfg.nSlots)
    {job : Job V σ κ Row Fold Logits} {tok pos : Nat} (before : (s.slot i).job = some job)
    (at' : job.point = .waiting tok pos) (now : Int) : Inv cfg (s.forwardTurn i job now) := by
  unfold State.forwardTurn
  split_ifs with open' late
  · exact drop_inv inv inside before at' open'.2 late.2.1
  · exact inv
  · apply answer_inv inv inside before at'
    by_contra neither
    rw [not_or] at neither
    exact open' ⟨neither.1, by simpa using neither.2⟩

theorem enqueue_local (i : Nat) (job : Job V σ κ Row Fold Logits) (tok pos : Nat) :
    Local s (s.enqueue i job tok pos) i where
  view := rfl
  worker := rfl
  cuts := rfl
  rows := rfl
  stop := rfl
  seq _ other := Function.update_of_ne other _ _
  slot _ other := Function.update_of_ne other _ _

/-- A submission nobody has seen yet. -/
theorem enqueue_inv (inv : Inv cfg s) {i : Nat} (inside : i < cfg.nSlots)
    {job : Job V σ κ Row Fold Logits} {tok pos : Nat} (before : (s.slot i).job = some job)
    (at' : job.point = .submitting tok pos) (running : s.stop = false) :
    Inv cfg (s.enqueue i job tok pos) := by
  have here := inv.slots i
  have rests := here.rests running (by
    intro other same
    rw [before] at same
    cases same
    rw [at']
    rfl)
  apply inv.change inside (enqueue_local i job tok pos)
  · show SlotInv s.view i (Function.update s.seq i _ i) (Function.update s.slot i _ i)
    rw [Function.update_self, Function.update_self]
    constructor
    · intro other tok' pos' same waits
      cases same
      cases waits
      exact ⟨rfl, rfl, .wait rfl rests.2⟩
    · intro other same absurd
      cases same
      cases absurd
    · intro _
      exact ⟨_, rfl, rfl⟩
    · intro _ asleep
      have absurd := asleep _ rfl
      cases absurd
    · intro other same
      cases same
      exact here.number job before
    · exact here.closed
    · intro other same _
      cases same
      apply here.stays job before
      rw [at']
      rfl
    · exact here.once
    · intro k taken
      exact Nat.le_succ_of_le (here.cut k taken)
    · intro _
      refine ⟨?_, ?_, ?_⟩
      · intro taken
        exact absurd (here.cut _ taken) (Nat.not_succ_le_self _)
      · intro out
        exact absurd (here.dropped _ out).1 (Nat.not_succ_le_self _)
      · intro out
        exact absurd (here.abandoned _ out).2.1 (Nat.not_succ_le_self _)
    · intro k out
      exact ⟨Nat.le_succ_of_le (here.dropped k out).1, (here.dropped k out).2⟩
    · intro k out
      have old := here.abandoned k out
      exact ⟨old.1, Nat.le_succ_of_le old.2.1, old.2.2⟩
    · intro k least most
      rcases Nat.le_succ_iff.mp most with earlier | last
      · rcases here.covered k least earlier with taken | out | out | ⟨_, state⟩
        · exact Or.inl taken
        · exact Or.inr (Or.inl out)
        · exact Or.inr (Or.inr (Or.inl out))
        · rw [rests.1] at state
          cases state
      · exact Or.inr (Or.inr (Or.inr ⟨last, rfl⟩))
  · intro _
    have counted := count_state inv inside running
      { s.seq i with tok := tok, pos := pos, state := .wait }
    have off : isWait (s.seq i) = false := by
      unfold isWait
      rw [rests.1]
      rfl
    have waiting : isWait { s.seq i with tok := tok, pos := pos, state := .wait } = true := rfl
    rw [waiting, off, if_pos rfl, if_neg Bool.false_ne_true] at counted
    show s.nWait + 1 = (count isWait cfg.nSlots
      (Function.update s.seq i { s.seq i with tok := tok, pos := pos, state := .wait }) : Int)
    omega

theorem submit_stopped_inv (inv : Inv cfg s) {i : Nat} (inside : i < cfg.nSlots)
    {job : Job V σ κ Row Fold Logits} {tok pos : Nat} (before : (s.slot i).job = some job)
    (at' : job.point = .submitting tok pos) (stopped : s.stop = true) :
    Inv cfg ((s.enqueue i job tok pos).answer i { job with point := .waiting tok pos }) := by
  have here := inv.slots i
  have change := (@enqueue_local _ _ _ _ _ _ s i job tok pos).trans
    (answer_local i { job with point := .waiting tok pos })
  have seqIs : (s.enqueue i job tok pos).seq i =
      { s.seq i with tok := tok, pos := pos, state := .wait } := Function.update_self _ _ _
  have slotIs : (s.enqueue i job tok pos).slot i = { s.slot i with
      submitted := (s.slot i).submitted + 1
      job := some { job with point := .waiting tok pos } } := Function.update_self _ _ _
  apply inv.change inside change
  · show SlotInv s.view i (Function.update (s.enqueue i job tok pos).seq i _ i)
      (Function.update (s.enqueue i job tok pos).slot i _ i)
    have refused : (s.enqueue i job tok pos).answered i = false := by
      unfold State.answered
      rw [seqIs]
      rfl
    rw [Function.update_self, Function.update_self, refused, slotIs, seqIs, if_pos rfl,
      if_neg Bool.false_ne_true]
    constructor
    · intro other tok' pos' same waits
      cases same
      cases waits
    · intro other same absurd
      cases same
      cases absurd
    · intro absurd
      cases absurd
    · intro running
      rw [show s.view.stop = s.stop from rfl, stopped] at running
      cases running
    · intro other same
      cases same
      exact here.number job before
    · exact here.closed
    · intro other same open'
      cases same
      cases open'
    · exact here.once
    · intro k taken
      exact Nat.le_succ_of_le (here.cut k taken)
    · intro absurd
      cases absurd
    · intro k out
      exact ⟨Nat.le_succ_of_le (here.dropped k out).1, (here.dropped k out).2⟩
    · intro k out
      rcases List.mem_cons.mp out with same | old
      · rw [same]
        refine ⟨stopped, Nat.le_refl _, ?_⟩
        intro taken
        exact absurd (here.cut _ taken) (Nat.not_succ_le_self _)
      · have earlier := here.abandoned k old
        exact ⟨earlier.1, Nat.le_succ_of_le earlier.2.1, earlier.2.2⟩
    · intro k least most
      rcases Nat.le_succ_iff.mp most with earlier | last
      · rcases here.covered k least earlier with taken | out | out | ⟨same, state⟩
        · exact Or.inl taken
        · exact Or.inr (Or.inl out)
        · exact Or.inr (Or.inr (Or.inl (List.mem_cons_of_mem _ out)))
        · rcases here.waits state with ⟨other, same', waits⟩
          rw [before] at same'
          cases same'
          rw [at'] at waits
          cases waits
      · rw [last]
        exact Or.inr (Or.inr (Or.inl List.mem_cons_self))
  · intro running
    rw [stopped] at running
    cases running

theorem submit_inv (inv : Inv cfg s) {i : Nat} (inside : i < cfg.nSlots)
    {job : Job V σ κ Row Fold Logits} {tok pos : Nat} (before : (s.slot i).job = some job)
    (at' : job.point = .submitting tok pos) (now : Int) :
    Inv cfg (s.forwardEnter i job tok pos now) := by
  unfold State.forwardEnter
  cases stopped : s.stop with
  | false =>
      have queued := enqueue_inv inv inside before at' stopped
      have slotIs : ((s.enqueue i job tok pos).slot i).job =
          some { job with point := .waiting tok pos } := by
        show (Function.update s.slot i _ i).job = _
        rw [Function.update_self]
      exact forward_turn_inv queued inside slotIs rfl now
  | true =>
      unfold State.forwardTurn
      rw [if_neg]
      · exact submit_stopped_inv inv inside before at' stopped
      · intro open'
        have running : s.stop = false := open'.2
        rw [stopped] at running
        cases running

/-! ## Steps of a slot thread -/

theorem fire_slot_inv (inv : Inv cfg s) {i : Nat} (inside : i < cfg.nSlots)
    {job : Job V σ κ Row Fold Logits} (before : (s.slot i).job = some job) {now : Int}
    {event : Event V σ κ Row Fold Logits} (fired : fireSlot s i job now event = some next) :
    Inv cfg next := by
  cases event with
  | enter _ =>
      simp only [fireSlot] at fired
      split at fired
      · next at' =>
          split_ifs at fired
          · cases fired
            apply inv.moves inside before
            · rw [at']
              rfl
            · rfl
            · rfl
            · intro absurd
              cases absurd
            · intro absurd
              cases absurd
          · cases fired
            have counted := inv.counters (s.nActive + 1) s.devNext s.devServing
            apply counted.moves inside before
            · rw [at']
              rfl
            · rfl
            · rfl
            · intro _
              rw [at']
              rfl
            · intro absurd
              cases absurd
      · cases fired
  | step _ =>
      simp only [fireSlot] at fired
      split at fired
      · next prompt at' =>
          split at fired
          · cases fired
          · split at fired
            · cases fired
              apply inv.moves inside before
              · rw [at']
                rfl
              · rfl
              · rfl
              · intro absurd
                cases absurd
              · intro absurd
                cases absurd
            · cases fired
              apply inv.moves inside before
              · rw [at']
                rfl
              · rfl
              · rfl
              · intro _
                rw [at']
                rfl
              · intro absurd
                cases absurd
      · cases fired
  | check _ _ =>
      simp only [fireSlot] at fired
      split at fired
      · next tok pos at' =>
          split_ifs at fired
          all_goals
            cases fired
            apply inv.moves inside before
            · rw [at']
              rfl
            · rfl
            · rfl
            · intro _
              rw [at']
              rfl
            · intro absurd
              cases absurd
      · cases fired
  | submit _ _ =>
      simp only [fireSlot] at fired
      split at fired
      · next tok pos at' =>
          cases fired
          exact submit_inv inv inside before at' now
      · cases fired
  | wake _ _ =>
      simp only [fireSlot] at fired
      split at fired
      · next tok pos at' =>
          cases fired
          exact forward_turn_inv inv inside before at' now
      · cases fired
  | finish _ =>
      simp only [fireSlot] at fired
      split at fired
      · next at' =>
          cases fired
          have counted := inv.counters (s.nActive - 1) s.devNext s.devServing
          apply counted.leaves inside before
          rw [at']
          rfl
      · cases fired
  | _ => cases fired

theorem fire_solo_inv (inv : Inv cfg s) {i : Nat} (inside : i < cfg.nSlots)
    {job : Job V σ κ Row Fold Logits} (before : (s.slot i).job = some job)
    {event : Event V σ κ Row Fold Logits} (fired : fireSolo cfg s i job event = some next) :
    Inv cfg next := by
  cases event with
  | soloTake _ =>
      simp only [fireSolo] at fired
      split at fired
      · next at' =>
          split_ifs at fired
          · cases fired
            have counted := inv.counters s.nActive (s.devNext + 1) s.devServing
            apply counted.moves inside before
            · rw [at']
              rfl
            · rfl
            · rfl
            · intro absurd
              cases absurd
            · intro absurd
              cases absurd
          · cases fired
            apply inv.moves inside before
            · rw [at']
              rfl
            · rfl
            · rfl
            · intro absurd
              cases absurd
            · intro absurd
              cases absurd
      · cases fired
  | soloTurn _ =>
      simp only [fireSolo] at fired
      split at fired
      · next ticket at' =>
          split_ifs at fired
          cases fired
          apply inv.moves inside before
          · rw [at']
            rfl
          · rfl
          · rfl
          · intro absurd
            cases absurd
          · intro absurd
            cases absurd
      · cases fired
  | soloRun _ =>
      simp only [fireSolo] at fired
      split at fired
      · next at' =>
          cases fired
          apply inv.moves inside before
          · rw [at']
            rfl
          · rfl
          · rfl
          · intro absurd
            cases absurd
          · intro absurd
            cases absurd
      · cases fired
  | soloGive _ =>
      simp only [fireSolo] at fired
      split at fired
      · next at' =>
          cases fired
          have counted := inv.counters s.nActive s.devNext
            (if cfg.deviceTurn then s.devServing + 1 else s.devServing)
          apply counted.leaves inside before
          rw [at']
          rfl
      · cases fired
  | _ => cases fired

end GridcoreRunner.Scheduler
