import GridcoreRunner.Engine.Fork
import GridcoreRunner.Server.SchedulerSolo

/-!
# Runs of the scheduler

Whose row a wait returns, and what becomes of a request that was dropped.
-/

namespace GridcoreRunner.Scheduler

open GridcoreRunner.Causal GridcoreRunner.Generation GridcoreRunner.Table GridcoreRunner.Runs

set_option autoImplicit false

variable {V σ κ Row Fold Logits : Type*}
variable {cfg : Config} {s next : State V σ κ Row Fold Logits}

/-! ## What a slot thread may change -/

/-- Only the slot's own record is written. -/
theorem Local.ofSlot {i : Nat} {slot : Slot V σ κ Row Fold Logits}
    (worker : next.worker = s.worker) (cuts : next.cuts = s.cuts) (rows : next.rows = s.rows)
    (stop : next.stop = s.stop) (seq : next.seq = s.seq)
    (written : next.slot = Function.update s.slot i slot) : Local s next i where
  view := by
    unfold State.view
    rw [worker, cuts, rows, stop]
  worker := worker
  cuts := cuts
  rows := rows
  stop := stop
  seq j _ := by rw [seq]
  slot j other := by
    rw [written]
    exact Function.update_of_ne other _ _

theorem Local.refl (i : Nat) : Local s s i where
  view := rfl
  worker := rfl
  cuts := rfl
  rows := rfl
  stop := rfl
  seq _ _ := rfl
  slot _ _ := rfl

theorem forward_turn_local (i : Nat) (job : Job V σ κ Row Fold Logits) (now : Int) :
    Local s (s.forwardTurn i job now) i := by
  unfold State.forwardTurn
  split_ifs
  · exact drop_local i job
  · exact Local.refl i
  · exact answer_local i job

theorem fire_slot_local {i : Nat} {job : Job V σ κ Row Fold Logits} {now : Int}
    {event : Event V σ κ Row Fold Logits} (fired : fireSlot s i job now event = some next) :
    Local s next i := by
  cases event with
  | enter _ =>
      simp only [fireSlot] at fired
      split at fired
      · split_ifs at fired
        all_goals
          cases fired
          exact Local.ofSlot rfl rfl rfl rfl rfl rfl
      · cases fired
  | step _ =>
      simp only [fireSlot] at fired
      split at fired
      · split at fired
        · cases fired
        · split at fired
          all_goals
            cases fired
            exact Local.ofSlot rfl rfl rfl rfl rfl rfl
      · cases fired
  | check _ _ =>
      simp only [fireSlot] at fired
      split at fired
      · split_ifs at fired
        all_goals
          cases fired
          exact Local.ofSlot rfl rfl rfl rfl rfl rfl
      · cases fired
  | submit _ _ =>
      simp only [fireSlot] at fired
      split at fired
      · next tok pos _ =>
          cases fired
          exact (enqueue_local i job tok pos).trans (forward_turn_local i _ now)
      · cases fired
  | wake _ _ =>
      simp only [fireSlot] at fired
      split at fired
      · cases fired
        exact forward_turn_local i job now
      · cases fired
  | finish _ =>
      simp only [fireSlot] at fired
      split at fired
      · cases fired
        exact Local.ofSlot rfl rfl rfl rfl rfl rfl
      · cases fired
  | _ => cases fired

theorem fire_solo_local {i : Nat} {job : Job V σ κ Row Fold Logits}
    {event : Event V σ κ Row Fold Logits} (fired : fireSolo cfg s i job event = some next) :
    Local s next i := by
  cases event with
  | soloTake _ =>
      simp only [fireSolo] at fired
      split at fired
      · split_ifs at fired
        all_goals
          cases fired
          exact Local.ofSlot rfl rfl rfl rfl rfl rfl
      · cases fired
  | soloTurn _ =>
      simp only [fireSolo] at fired
      split at fired
      · split_ifs at fired
        cases fired
        exact Local.ofSlot rfl rfl rfl rfl rfl rfl
      · cases fired
  | soloRun _ | soloGive _ =>
      simp only [fireSolo] at fired
      split at fired
      · cases fired
        exact Local.ofSlot rfl rfl rfl rfl rfl rfl
      · cases fired
  | _ => cases fired

/-- A slot as the decode thread leaves it: all of it, up to the cache of its engine. -/
structure Untouched (slot slot' : Slot V σ κ Row Fold Logits) : Prop where
  point : slot'.job.map Job.point = slot.job.map Job.point
  droppedRequests : slot'.droppedRequests = slot.droppedRequests

theorem Untouched.same {slot slot' : Slot V σ κ Row Fold Logits} (is : slot' = slot) :
    Untouched slot slot' := by
  rw [is]
  exact ⟨rfl, rfl⟩

theorem Untouched.withKv {slot slot' : Slot V σ κ Row Fold Logits} (kv : Kv Row Fold)
    (before : Untouched slot slot') : Untouched slot (slot'.withKv kv) where
  point := by
    rw [← before.point]
    unfold Slot.withKv
    rw [Option.map_map]
    rfl
  droppedRequests := before.droppedRequests

theorem decode_untouched (batch : List Entry) (ok : Bool) (rows : List Logits)
    (kvs : List (Kv Row Fold)) (i : Nat) :
    Untouched (s.slot i) ((s.decodeBatch batch ok rows kvs).slot i) := by
  have written : (s.decodeBatch batch ok rows kvs).slot =
      scatter Slot.withKv ((batch.map Entry.slot).zip kvs) s.slot := by
    cases ok <;> rfl
  rw [written]
  exact @scatter_keeps _ _ Slot.withKv (Untouched (s.slot i))
    (fun kv _ before => before.withKv kv) _ s.slot i (Untouched.same rfl)

theorem gather_turn_cases : s.gatherTurn cfg = s.cutBatch cfg ∨
    s.gatherTurn cfg = { s with worker := .gathering } := by
  unfold State.gatherTurn
  dsimp only
  generalize (if s.nActive < cfg.batchMax then s.nActive else (cfg.batchMax : Int)) = want
  split_ifs
  · exact Or.inl rfl
  · exact Or.inr rfl

theorem work_turn_cases : s.workTurn cfg = s.cutBatch cfg ∨
    (∃ worker, s.workTurn cfg = { s with worker := worker } ∧ worker.batch = []) ∨
    s.workTurn cfg = s := by
  unfold State.workTurn
  split_ifs
  · exact Or.inr (Or.inl ⟨.exited, rfl, rfl⟩)
  · exact Or.inr (Or.inr rfl)
  · rcases @gather_turn_cases _ _ _ _ _ _ cfg s with cut | waits
    · exact Or.inl cut
    · exact Or.inr (Or.inl ⟨.gathering, waits, rfl⟩)

/-- The decode thread cuts a microbatch, or keeps what it has in hand, or lets go of it. -/
theorem fire_worker_moves {event : Event V σ κ Row Fold Logits}
    (fired : fireWorker cfg s event = some next) :
    next = s.cutBatch cfg ∨ ((∀ i, Untouched (s.slot i) (next.slot i)) ∧ next.cuts = s.cuts ∧
      (next.worker.batch = s.worker.batch ∨ next.worker.batch = [])) := by
  cases event with
  | work =>
      simp only [fireWorker] at fired
      split at fired
      · cases fired
        rcases @work_turn_cases _ _ _ _ _ _ cfg s with cut | ⟨worker, moved, free⟩ | same
        · exact Or.inl cut
        · rw [moved]
          exact Or.inr ⟨fun i => .same rfl, rfl, Or.inr free⟩
        · rw [same]
          exact Or.inr ⟨fun i => .same rfl, rfl, Or.inl rfl⟩
      · cases fired
  | gather timedOut =>
      simp only [fireWorker] at fired
      split at fired
      · cases timedOut with
        | true =>
            cases fired
            exact Or.inl rfl
        | false =>
            have moved : s.gatherTurn cfg = next := Option.some.inj fired
            rw [← moved]
            rcases @gather_turn_cases _ _ _ _ _ _ cfg s with cut | waits
            · exact Or.inl cut
            · rw [waits]
              exact Or.inr ⟨fun i => .same rfl, rfl, Or.inr rfl⟩
      · cases fired
  | take =>
      simp only [fireWorker] at fired
      split at fired
      · next batch hand =>
          split_ifs at fired
          all_goals
            cases fired
            right
            rw [hand]
            exact ⟨fun i => .same rfl, rfl, Or.inl rfl⟩
      · cases fired
  | turn =>
      simp only [fireWorker] at fired
      split at fired
      · next batch ticket hand =>
          split_ifs at fired
          cases fired
          right
          rw [hand]
          exact ⟨fun i => .same rfl, rfl, Or.inl rfl⟩
      · cases fired
  | decode ok rows kvs =>
      simp only [fireWorker] at fired
      split at fired
      · next batch hand =>
          split_ifs at fired
          cases fired
          right
          rw [hand]
          refine ⟨decode_untouched batch ok rows kvs, ?_, Or.inl ?_⟩
          · cases ok <;> rfl
          · cases ok <;> rfl
      · cases fired
  | give =>
      simp only [fireWorker] at fired
      split at fired
      · next batch ok hand =>
          cases fired
          right
          rw [hand]
          exact ⟨fun i => .same rfl, rfl, Or.inl rfl⟩
      · cases fired
  | publish =>
      simp only [fireWorker] at fired
      split at fired
      · cases fired
        exact Or.inr ⟨fun i => .same rfl, rfl, Or.inr rfl⟩
      · cases fired
  | prefillBegin =>
      simp only [fireWorker] at fired
      split_ifs at fired
      all_goals
        cases fired
        exact Or.inr ⟨fun i => .same rfl, rfl, Or.inl rfl⟩
  | prefillEnd ticket =>
      simp only [fireWorker] at fired
      split_ifs at fired
      all_goals
        cases fired
        exact Or.inr ⟨fun i => .same rfl, rfl, Or.inl rfl⟩
  | stop =>
      cases fired
      exact Or.inr ⟨fun i => .same rfl, rfl, Or.inl rfl⟩
  | _ => cases fired

/-! ## A dropped request -/

theorem drops_written {i : Nat} {slot : Slot V σ κ Row Fold Logits}
    (written : next.slot = Function.update s.slot i slot)
    (same : slot.droppedRequests = (s.slot i).droppedRequests) :
    (next.slot i).droppedRequests = (s.slot i).droppedRequests := by
  rw [written, Function.update_self]
  exact same

theorem forward_turn_drops {i : Nat} {job : Job V σ κ Row Fold Logits} {now : Int}
    (waits : (s.seq i).state ≠ .wait ∨ s.stop = true) :
    ((s.forwardTurn i job now).slot i).droppedRequests = (s.slot i).droppedRequests := by
  unfold State.forwardTurn
  split_ifs with open' late
  · rcases waits with awake | stopped
    · exact absurd late.2.1 awake
    · rw [stopped] at open'
      cases open'.2
  · rfl
  · exact drops_written rfl rfl

/-- A request is dropped only where its sequence is in no microbatch. -/
theorem fire_slot_drops (inv : Inv cfg s) {i : Nat} {job : Job V σ κ Row Fold Logits}
    (before : (s.slot i).job = some job) {now : Int} {event : Event V σ κ Row Fold Logits}
    (fired : fireSlot s i job now event = some next) : Absent s.view i ∨
      (next.slot i).droppedRequests = (s.slot i).droppedRequests := by
  cases event with
  | enter _ =>
      simp only [fireSlot] at fired
      split at fired
      · split_ifs at fired
        all_goals
          cases fired
          exact Or.inr (drops_written rfl rfl)
      · cases fired
  | step _ =>
      simp only [fireSlot] at fired
      split at fired
      · split at fired
        · cases fired
        · split at fired
          all_goals
            cases fired
            exact Or.inr (drops_written rfl rfl)
      · cases fired
  | check _ _ =>
      simp only [fireSlot] at fired
      split at fired
      · split_ifs at fired
        all_goals
          cases fired
          exact Or.inr (drops_written rfl rfl)
      · cases fired
  | submit _ _ =>
      simp only [fireSlot] at fired
      split at fired
      · next tok pos at' =>
          cases fired
          cases stopped : s.stop with
          | false =>
              left
              apply ((inv.slots i).rests stopped ?_).2
              intro other same
              rw [before] at same
              cases same
              rw [at']
              rfl
          | true =>
              right
              have queued : ((s.enqueue i job tok pos).slot i).droppedRequests =
                  (s.slot i).droppedRequests :=
                drops_written rfl rfl
              rw [← queued]
              exact forward_turn_drops (Or.inr stopped)
      · cases fired
  | wake _ _ =>
      simp only [fireSlot] at fired
      split at fired
      · cases fired
        by_cases waits : (s.seq i).state = .wait
        · exact Or.inl ((inv.slots i).wait_absent waits)
        · exact Or.inr (forward_turn_drops (Or.inl waits))
      · cases fired
  | finish _ =>
      simp only [fireSlot] at fired
      split at fired
      · cases fired
        exact Or.inr (drops_written rfl rfl)
      · cases fired
  | _ => cases fired

theorem fire_solo_drops {i : Nat} {job : Job V σ κ Row Fold Logits}
    {event : Event V σ κ Row Fold Logits} (fired : fireSolo cfg s i job event = some next) :
    (next.slot i).droppedRequests = (s.slot i).droppedRequests := by
  cases event with
  | soloTake _ =>
      simp only [fireSolo] at fired
      split at fired
      · split_ifs at fired
        all_goals
          cases fired
          exact drops_written rfl rfl
      · cases fired
  | soloTurn _ =>
      simp only [fireSolo] at fired
      split at fired
      · split_ifs at fired
        cases fired
        exact drops_written rfl rfl
      · cases fired
  | soloRun _ | soloGive _ =>
      simp only [fireSolo] at fired
      split at fired
      · cases fired
        exact drops_written rfl rfl
      · cases fired
  | _ => cases fired

/-- No microbatch in hand has a sequence whose request was dropped. -/
def Clean (s : State V σ κ Row Fold Logits) : Prop :=
  ∀ entry ∈ s.worker.batch, entry.request ∉ (s.slot entry.slot).droppedRequests

/-- A slot drops nothing, or is not in the microbatch. -/
theorem Local.clean {i : Nat} (change : Local s next i) (clean : Clean s)
    (drops : Absent s.view i ∨ (next.slot i).droppedRequests = (s.slot i).droppedRequests) :
    Clean next := by
  intro entry taken
  rw [change.worker] at taken
  by_cases here : entry.slot = i
  · rcases drops with absent | same
    · exact absurd (List.mem_map.mpr ⟨entry, taken, here⟩) absent
    · rw [here, same, ← here]
      exact clean entry taken
  · rw [change.slot entry.slot here]
    exact clean entry taken

theorem arrive_local {i : Nat} {request : Request V σ κ Row Fold Logits}
    (fired : arrive s i request = some next) : Local s next i ∧
      (next.slot i).droppedRequests = (s.slot i).droppedRequests := by
  unfold arrive at fired
  split at fired
  · cases fired
  · cases fired
    exact ⟨Local.ofSlot rfl rfl rfl rfl rfl rfl, drops_written rfl rfl⟩

theorem cut_clean (inv : Inv cfg s) : Clean (s.cutBatch cfg) := by
  intro entry taken
  rw [cut_batch] at taken
  rcases List.mem_map.mp taken with ⟨i, inside, is⟩
  rcases (inv.slots i).waits (mem_waiting.mp inside).2 with ⟨job, here, waits⟩
  have number : (s.entryOf i).request = job.number := by
    show ((s.slot i).job.map Job.number).getD 0 = job.number
    rw [here]
    rfl
  rw [← is, cut_slot, number]
  show job.number ∉ (s.slot i).droppedRequests
  apply (inv.slots i).stays job here
  cases at' : job.point with
  | waiting tok pos => rfl
  | _ =>
      rw [at'] at waits
      cases waits

theorem fire_clean (inv : Inv cfg s) (clean : Clean s) {event : Event V σ κ Row Fold Logits}
    (fired : fire cfg s event = some next) : Clean next := by
  rcases fire_cases fired with ⟨i, request, _, _, arrived⟩ | moved |
    ⟨i, now, job, _, _, here, slot | alone⟩
  · exact (arrive_local arrived).1.clean clean (Or.inr (arrive_local arrived).2)
  · rcases fire_worker_moves moved with cut | ⟨untouched, _, batch | batch⟩
    · rw [cut]
      exact cut_clean inv
    · intro entry taken
      rw [batch] at taken
      rw [(untouched entry.slot).droppedRequests]
      exact clean entry taken
    · intro entry taken
      rw [batch] at taken
      cases taken
  · exact (fire_slot_local slot).clean clean (fire_slot_drops inv here slot)
  · exact (fire_solo_local alone).clean clean (Or.inr (fire_solo_drops alone))

/-! ## Whose row a wait returns -/

theorem answer_slot (i : Nat) (job : Job V σ κ Row Fold Logits) : ((s.answer i job).slot i).job =
    some { job with point := if s.answered i then .stepping none else .ending } := by
  show (Function.update s.slot i _ i).job = _
  rw [Function.update_self]

theorem answer_seq (i : Nat) (job : Job V σ κ Row Fold Logits) :
    (s.answer i job).seq i = { s.seq i with state := .off } := by
  show Function.update s.seq i _ i = _
  rw [Function.update_self]

/-- A turn of the waiting loop that returns a row is the answer. -/
theorem forward_turn_returns {i : Nat} {job job' : Job V σ κ Row Fold Logits} {tok pos : Nat}
    (before : (s.slot i).job = some job) (at' : job.point = .waiting tok pos) {now : Int}
    (after : ((s.forwardTurn i job now).slot i).job = some job')
    (steps : job'.point = .stepping none) : s.forwardTurn i job now = s.answer i job ∧
      job'.number = job.number ∧ (s.seq i).state = .ready := by
  unfold State.forwardTurn at after ⊢
  split_ifs at after ⊢ with open' late
  · have here : ((s.drop i job).slot i).job = some { job with point := .ending } := by
      show (Function.update s.slot i _ i).job = _
      rw [Function.update_self]
    rw [here] at after
    cases after
    cases steps
  · rw [before] at after
    cases after
    rw [at'] at steps
    cases steps
  · rw [answer_slot] at after
    cases after
    refine ⟨rfl, rfl, ?_⟩
    have answered : s.answered i = true := by
      by_contra refused
      rw [if_neg refused] at steps
      cases steps
    unfold State.answered at answered
    rw [Bool.and_eq_true] at answered
    exact decide_eq_true_iff.mp answered.1

/-- The row a call of `sched_forward` returns was computed for what it had submitted, and for
its latest submission. -/
def OwnRow (next : State V σ κ Row Fold Logits) (i number tok pos : Nat) : Prop :=
  ∃ row, (next.seq i).logits = some row ∧
    (ownEntry i (next.slot i) number tok pos, row) ∈ next.rows

theorem wake_returns (inv : Inv cfg s) {i : Nat} (inside : i < cfg.nSlots)
    {job job' : Job V σ κ Row Fold Logits} {tok pos : Nat} (before : (s.slot i).job = some job) (at' : job.point = .waiting tok pos)
    {now : Int} (after : ((s.forwardTurn i job now).slot i).job = some job')
    (steps : job'.point = .stepping none) : OwnRow (s.forwardTurn i job now) i job.number tok pos := by
  have kept := forward_turn_inv inv inside before at' now
  rcases (kept.slots i).stepping job' after steps with ⟨_, row, is, home⟩
  rcases forward_turn_returns before at' after steps with ⟨answered, number, _⟩
  have way := (inv.slots i).waiting job tok pos before at'
  refine ⟨row, is, ?_⟩
  rw [number, answered, answer_seq] at home
  rw [answered, ← way.1, ← way.2.1]
  exact home

/-- A thread inside `sched_forward`. -/
def Point.calls (tok pos : Nat) (point : Point Logits) : Prop :=
  point = .submitting tok pos ∨ point = .waiting tok pos

/-- A thread inside the call that stays where it is has not returned. -/
theorem calls_on {i tok pos : Nat} {job job' : Job V σ κ Row Fold Logits}
    (before : (s.slot i).job = some job) (calls : job.point.calls tok pos)
    (after : (next.slot i).job = some job')
    (same : (next.slot i).job.map Job.point = (s.slot i).job.map Job.point) :
    job'.point ≠ .stepping none := by
  intro steps
  rw [before, after] at same
  have points : job'.point = job.point := Option.some.inj same
  rw [steps] at points
  rcases calls with submits | waits
  · rw [← points] at submits
    cases submits
  · rw [← points] at waits
    cases waits

theorem submit_returns_none {i tok pos : Nat} {job job' : Job V σ κ Row Fold Logits} {now : Int}
    (after : ((s.forwardEnter i job tok pos now).slot i).job = some job') :
    job'.point ≠ .stepping none := by
  intro steps
  have slotIs : ((s.enqueue i job tok pos).slot i).job =
      some { job with point := .waiting tok pos } := by
    show (Function.update s.slot i _ i).job = _
    rw [Function.update_self]
  have ready := (forward_turn_returns slotIs rfl after steps).2.2
  have waits : ((s.enqueue i job tok pos).seq i).state = .wait := by
    show (Function.update s.seq i _ i).state = _
    rw [Function.update_self]
  rw [waits] at ready
  cases ready

theorem fire_slot_own_row (inv : Inv cfg s) {i : Nat} (inside : i < cfg.nSlots) {tok pos : Nat}
    {job job' : Job V σ κ Row Fold Logits} (before : (s.slot i).job = some job)
    (calls : job.point.calls tok pos) {now : Int} {event : Event V σ κ Row Fold Logits}
    (fired : fireSlot s i job now event = some next) (after : (next.slot i).job = some job')
    (steps : job'.point = .stepping none) : OwnRow next i job.number tok pos := by
  rcases calls with submits | waits
  · cases event with
    | submit _ _ =>
        simp only [fireSlot, submits] at fired
        cases fired
        exact absurd steps (submit_returns_none after)
    | enter _ | step _ | check _ _ | wake _ _ | finish _ =>
        simp only [fireSlot, submits] at fired
        cases fired
    | _ => cases fired
  · cases event with
    | wake _ _ =>
        simp only [fireSlot, waits] at fired
        cases fired
        exact wake_returns inv inside before waits after steps
    | enter _ | step _ | check _ _ | submit _ _ | finish _ =>
        simp only [fireSlot, waits] at fired
        cases fired
    | _ => cases fired

theorem fire_solo_calls {i : Nat} {job : Job V σ κ Row Fold Logits} {tok pos : Nat}
    (calls : job.point.calls tok pos) (event : Event V σ κ Row Fold Logits) :
    fireSolo cfg s i job event = none := by
  rcases calls with submits | waits
  · cases event with
    | soloTake _ | soloTurn _ | soloRun _ | soloGive _ => simp only [fireSolo, submits]
    | _ => rfl
  · cases event with
    | soloTake _ | soloTurn _ | soloRun _ | soloGive _ => simp only [fireSolo, waits]
    | _ => rfl

/-- Whatever the event, a call that returns a row returns its own. -/
theorem fire_own_row (inv : Inv cfg s) {event : Event V σ κ Row Fold Logits}
    (fired : fire cfg s event = some next) {i tok pos : Nat}
    {job job' : Job V σ κ Row Fold Logits} (before : (s.slot i).job = some job)
    (calls : job.point.calls tok pos) (after : (next.slot i).job = some job')
    (steps : job'.point = .stepping none) : OwnRow next i job.number tok pos := by
  rcases fire_cases fired with ⟨j, request, _, _, arrived⟩ | moved |
    ⟨j, now, other, _, inside, here, slot | alone⟩
  · by_cases own : i = j
    · unfold arrive at arrived
      rw [← own, before] at arrived
      cases arrived
    · have same := (arrive_local arrived).1.slot i own
      exact absurd steps (calls_on before calls after (by rw [same]))
  · rcases fire_worker_moves moved with cut | ⟨untouched, _, _⟩
    · exact absurd steps (calls_on before calls after (by rw [cut, cut_slot]))
    · exact absurd steps (calls_on before calls after (untouched i).point)
  · by_cases own : i = j
    · rw [← own] at inside here slot
      rw [before] at here
      cases here
      exact fire_slot_own_row inv inside before calls slot after steps
    · have same := (fire_slot_local slot).slot i own
      exact absurd steps (calls_on before calls after (by rw [same]))
  · by_cases own : i = j
    · rw [← own] at here alone
      rw [before] at here
      cases here
      rw [fire_solo_calls calls] at alone
      cases alone
    · have same := (fire_solo_local alone).slot i own
      exact absurd steps (calls_on before calls after (by rw [same]))

/-- A microbatch that is cut has the entry of every sequence that waits. -/
theorem fire_cuts_all {event : Event V σ κ Row Fold Logits}
    (fired : fire cfg s event = some next) (cuts : next.cuts ≠ s.cuts) {i : Nat}
    (inside : i < cfg.nSlots) (waits : (s.seq i).state = .wait) :
    s.entryOf i ∈ next.worker.batch := by
  rcases fire_cases fired with ⟨j, request, _, _, arrived⟩ | moved |
    ⟨j, now, other, _, _, _, slot | alone⟩
  · exact absurd (arrive_local arrived).1.cuts cuts
  · rcases fire_worker_moves moved with cut | ⟨_, same, _⟩
    · rw [cut, cut_batch]
      exact List.mem_map.mpr ⟨i, mem_waiting.mpr ⟨inside, waits⟩, rfl⟩
    · exact absurd same cuts
  · exact absurd (fire_slot_local slot).cuts cuts
  · exact absurd (fire_solo_local alone).cuts cuts

theorem starts_clean (starts : Starts s) : Clean s := by
  intro entry taken
  rw [starts.worker] at taken
  cases taken

theorem reachable_kept (run : Reachable Starts (fire cfg) s) : Inv cfg s ∧ Clean s := by
  apply @Reaches.invariant _ _ _ _ _ (fun s => Inv cfg s ∧ Clean s) ?_ ?_ _ run
  · intro state starts
    exact ⟨starts_inv starts, starts_clean starts⟩
  · intro state after event both _ fired
    exact ⟨fire_inv both.1 fired, fire_clean both.1 both.2 fired⟩

/-- What has become of every submission of a slot: it is in one microbatch, or it was dropped
or given up for the stop and is in none, or it waits. -/
structure Accounted (s : State V σ κ Row Fold Logits) (i : Nat) : Prop where
  once : (subsOf s.cuts i).Nodup
  dropped : ∀ k ∈ (s.slot i).dropped, k ∉ subsOf s.cuts i
  abandoned : ∀ k ∈ (s.slot i).abandoned, s.stop = true
  every : ∀ k, 1 ≤ k → k ≤ (s.slot i).submitted → k ∈ subsOf s.cuts i ∨
    k ∈ (s.slot i).dropped ∨ k ∈ (s.slot i).abandoned ∨
      (k = (s.slot i).submitted ∧ (s.seq i).state = .wait)

/-- The scheduler in every state it reaches, under every interleaving; and where no stop comes
and every decode returns the rows of `model_forward`, what a request without a deadline gets. -/
theorem scheduler_runs (run : Reachable Starts (fire cfg) s) :
    (s.stop = false → s.nWait = count isWait cfg.nSlots s.seq) ∧
      (∀ i, Accounted s i) ∧
      (∀ entry ∈ s.worker.batch, entry.request ∉ (s.slot entry.slot).droppedRequests) ∧
      (∀ event next, fire cfg s event = some next →
        (∀ i job job' tok pos, (s.slot i).job = some job → job.point.calls tok pos →
          (next.slot i).job = some job' → job'.point = .stepping none →
            OwnRow next i job.number tok pos) ∧
        (next.cuts ≠ s.cuts → ∀ i < cfg.nSlots, (s.seq i).state = .wait →
          s.entryOf i ∈ next.worker.batch)) ∧
      (Reaches Starts (fire cfg) Faithful s → ∀ i, ∀ r ∈ (s.slot i).results,
        r.1.deadline ≤ 0 → r.2 = engineGenerate r.1) := by
  have kept := reachable_kept run
  refine ⟨kept.1.nWait, ?_, kept.2, ?_, ?_⟩
  · intro i
    have here := kept.1.slots i
    constructor
    · exact here.once
    · intro k out
      exact (here.dropped k out).2
    · intro k out
      exact (here.abandoned k out).1
    · exact here.covered
  · intro event next fired
    constructor
    · intro i job job' tok pos before calls after steps
      exact fire_own_row kept.1 fired before calls after steps
    · intro cuts i inside waits
      exact fire_cuts_all fired cuts inside waits
  · intro served i r delivered untimed
    exact ((served_solo served).2.slots i).results r delivered untimed

/-! ## Two requests in one microbatch -/

section TwoRequests

def twoSlots : Config where
  nSlots := 2
  batchMax := 8
  deviceTurn := false

/-- A model whose logits are the next token: the last one and the position, added. -/
def adder : Weights Nat Nat Unit Nat where
  recurrent := false
  fold0 := ()
  row := fun _ _ tok => tok
  fold := fun _ _ _ => ()
  head := fun rows _ tok => tok + rows.length

def adderSetup : Setup Unit Unit Unit Nat Unit Nat where
  m := { w := adder, nCtx := 16, nBatch := 8, specBatch := 4, nVocab := 256, verifyOk := true }
  dm := none
  gramFf := false
  grammarDraft := fun _ _ => []
  c := { idleConfig with
    stopIds := [7, 8]
    decode := fun tok => [tok.toUInt8]
    samplePick := fun _ logits _ => (.token logits, ()) }

/-- An engine behind a prompt of so many fives. -/
def adderEngine (pos : Nat) : Engine Unit Unit Unit Nat Unit where
  pos := pos
  hist := fun _ => 5
  kv := { rows := fun _ => 5, fold := (), snap := none }
  dpos := 0
  dkv := { rows := fun _ => 0, fold := (), snap := none }
  pendingPos := none
  genMax := 0
  genCount := 0
  gen := idleGen

def askUntilStop (pos : Nat) : Request Unit Unit Unit Nat Unit Nat where
  setup := adderSetup
  capture := false
  engine := adderEngine pos
  logits := 6
  maxNew := 8
  deadline := 0
  polls := []

def idleServer : State Unit Unit Unit Nat Unit Nat where
  seq := fun _ => { state := .off, tok := 0, pos := 0, logits := none, ok := false }
  slot := fun _ => { job := none, arrived := 0, submitted := 0, dropped := [], abandoned := [],
                     droppedRequests := [], results := [] }
  nWait := 0
  nActive := 0
  stop := false
  worker := .sleeping
  devNext := 0
  devServing := 0
  prefills := []
  cuts := []
  rows := []

/-- From the arrival of both requests to the microbatch. -/
def submits : List (Event Unit Unit Unit Nat Unit Nat) :=
  [.arrive 0 (askUntilStop 2), .arrive 1 (askUntilStop 1), .enter 0, .enter 1, .step 1, .step 0,
    .check 1 0, .check 0 0, .submit 1 0, .submit 0 0, .work, .take]

/-- From the rows to the answers. -/
def returns : List (Event Unit Unit Unit Nat Unit Nat) :=
  [.give, .publish, .wake 0 0, .wake 1 0, .step 0, .step 1, .finish 0, .finish 1]

def askedServer : State Unit Unit Unit Nat Unit Nat := play (fire twoSlots) idleServer submits

def servedServer : State Unit Unit Unit Nat Unit Nat :=
  play (fire twoSlots) (advance (fire twoSlots) askedServer
    (.decode true [8, 7] [forward adder (adderEngine 2).kv 6 2,
      forward adder (adderEngine 1).kv 6 1])) returns

/-- An event that is neither the stop nor a decode. -/
def Event.quiet : Event Unit Unit Unit Nat Unit Nat → Bool
  | .stop | .decode _ _ _ => false
  | _ => true

theorem quiet_faithful {event : Event Unit Unit Unit Nat Unit Nat} (quiet : event.quiet = true)
    (state : State Unit Unit Unit Nat Unit Nat) : Faithful state event := by
  constructor
  · intro stops
    rw [stops] at quiet
    cases quiet
  · intro ok rows kvs batch decodes
    rw [decodes] at quiet
    cases quiet

theorem all_quiet {events : List (Event Unit Unit Unit Nat Unit Nat)}
    (quiet : events.all Event.quiet = true) :
    ∀ event ∈ events, ∀ state, Faithful state event := by
  intro event inside state
  exact quiet_faithful (List.all_eq_true.mp quiet event inside) state

theorem idle_starts : Starts idleServer where
  seq _ := rfl
  slot _ := rfl
  nWait := rfl
  nActive := rfl
  stop := rfl
  worker := rfl
  prefills := rfl
  cuts := rfl
  rows := rfl

theorem asked_run : Reaches Starts (fire twoSlots) Faithful askedServer := by
  apply (Reaches.start idleServer idle_starts).plays
  · exact all_quiet rfl
  · decide +kernel

/-- A microbatch whose rows and caches are those of its sequences' own forwards. -/
theorem decode_each_faithful {state : State Unit Unit Unit Nat Unit Nat} {held : List Entry}
    (hand : state.worker = .holding held) (kv : Entry → Kv Nat Unit)
    (engine : ∀ entry ∈ held, ((state.slot entry.slot).job.map fun job =>
      (job.request.setup.m.w, job.engine.kv)) = some (adder, kv entry)) :
    Faithful state (.decode true
      (held.map fun entry => forwardHead adder (kv entry) entry.tok entry.pos)
      (held.map fun entry => forward adder (kv entry) entry.tok entry.pos)) := by
  -- what is paired with an entry was made from it
  have own : ∀ {α : Type} (f : Entry → α) {entry : Entry} {a : α},
      (entry, a) ∈ held.zip (held.map f) → a = f entry := by
    intro α f entry a paired
    have zipped : held.zip (held.map f) = held.map fun entry => (entry, f entry) := by
      rw [← List.zip_map', List.map_id']
    rw [zipped] at paired
    obtain ⟨other, -, same⟩ := List.mem_map.mp paired
    cases same
    rfl
  constructor
  · intro stops
    cases stops
  · intro ok rows kvs batch decodes holds
    cases decodes
    rw [hand] at holds
    cases holds
    refine ⟨rfl, ?_⟩
    intro entry inside job here
    have both := engine entry inside
    rw [here] at both
    have same := Option.some.inj both
    have weights : job.request.setup.m.w = adder := congrArg Prod.fst same
    have cache : job.engine.kv = kv entry := congrArg Prod.snd same
    rw [weights, cache]
    exact ⟨fun row paired => own _ paired, fun after paired => own _ paired⟩

theorem served_run : Reaches Starts (fire twoSlots) Faithful servedServer := by
  have decoded := asked_run.advance (.decode true [8, 7] [forward adder (adderEngine 2).kv 6 2,
      forward adder (adderEngine 1).kv 6 1])
    (@decode_each_faithful askedServer [⟨0, 1, 0, 6, 2⟩, ⟨1, 1, 0, 6, 1⟩] rfl
      (fun entry => (adderEngine entry.pos).kv) (by
        intro entry inside
        rcases List.mem_cons.mp inside with rfl | later
        · rfl
        · rw [List.mem_singleton.mp later]
          rfl)) (by decide +kernel)
  unfold servedServer
  apply decoded.plays
  · exact all_quiet rfl
  · decide +kernel

/-- Both rows of the microbatch are stop tokens: the bytes of the two solo generations. -/
theorem served_alone : servedServer.cuts.map (fun batch => batch.map fun entry => entry.slot) =
      [[0, 1]] ∧
    ∀ i < 2, ((servedServer.slot i).results.map fun r => r.2.1.gen.calls) = [[(false, [6])]] ∧
      ∀ r ∈ (servedServer.slot i).results, r.2 = engineGenerate r.1 := by
  have answered : ∀ i < 2, ((servedServer.slot i).results.map fun r => r.2.1.gen.calls) =
      [[(false, [6])]] := by decide +kernel
  refine ⟨by decide +kernel, fun i inside => ⟨answered i inside, ?_⟩⟩
  intro r delivered
  have runs := scheduler_runs (served_run.weaken fun _ _ _ => trivial)
  apply runs.2.2.2.2 served_run i r delivered
  have untimed : ∀ i < 2, (servedServer.slot i).results.all (fun r => decide (r.1.deadline ≤ 0)) =
      true := by decide +kernel
  exact decide_eq_true_iff.mp (List.all_eq_true.mp (untimed i inside) r delivered)

end TwoRequests

end GridcoreRunner.Scheduler
