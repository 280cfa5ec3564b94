import GridcoreRunner.Engine.Line
import GridcoreRunner.Server.SchedulerWork

/-!
# A shared microbatch computes what a slot computes alone

What a request will deliver is fixed from the moment it arrives: at every point of its
thread, what is left to do from there ends where `engine_generate` run alone ends.
-/

namespace GridcoreRunner.Scheduler

open GridcoreRunner.Causal GridcoreRunner.Generation GridcoreRunner.Table GridcoreRunner.Runs

set_option autoImplicit false

variable {V σ κ Row Fold Logits : Type*}
variable {cfg : Config} {s next : State V σ κ Row Fold Logits}

/-! ## One round of the loop -/

theorem gen_step_advances {setup : Setup V σ κ Row Fold Logits} {e e' : Engine V σ κ Row Fold}
    {logits : Logits} {tok pos : Nat}
    (more : engineGenStep setup e logits = (e', some (tok, pos))) :
    e.pos < setup.m.nCtx ∧ e'.pos = e.pos + 1 := by
  by_cases free : mayStep setup e
  · refine ⟨free.2, ?_⟩
    cases sampled : sampleToken setup.c e.gen logits with
    | ended gen =>
        rw [gen_step_ended free sampled] at more
        cases more
    | token gen tok' =>
        by_cases asks : (genToken setup.c gen tok').2 = true
        · rw [gen_step_more free sampled asks] at more
          cases more
          rfl
        · rw [gen_step_stopped free sampled asks] at more
          cases more
  · rw [gen_step_blocked free] at more
    cases more

theorem remaining_done {setup : Setup V σ κ Row Fold Logits} {e e' : Engine V σ κ Row Fold}
    {logits : Logits} (polls : List Bool) (done : engineGenStep setup e logits = (e', none)) :
    remaining setup polls e logits = e' := by
  unfold remaining
  rw [soloLoop, done]

/-- What is left once a step has handed out a row. -/
def remainingHanded (setup : Setup V σ κ Row Fold Logits) (polls : List Bool)
    (e : Engine V σ κ Row Fold) (tok pos : Nat) : Engine V σ κ Row Fold :=
  remaining setup polls (forwardPending setup e tok pos).1 (forwardPending setup e tok pos).2

theorem remaining_more {setup : Setup V σ κ Row Fold Logits} {e e' : Engine V σ κ Row Fold}
    {logits : Logits} {tok pos : Nat} (polls : List Bool)
    (more : engineGenStep setup e logits = (e', some (tok, pos))) :
    remaining setup polls e logits =
      if polls.headD false then e' else remainingHanded setup polls.tail e' tok pos := by
  have advanced := gen_step_advances more
  have fuel : setup.m.nCtx - e.pos = setup.m.nCtx - (forwardPending setup e' tok pos).1.pos + 1 := by
    show setup.m.nCtx - e.pos = setup.m.nCtx - e'.pos + 1
    omega
  unfold remaining
  rw [soloLoop, more, fuel]
  rfl

/-! ## What a request will deliver -/

/-- The row a waiting sequence waits for has been computed. -/
def Seq.computed (home : Bool) (q : Seq Logits) : Bool :=
  decide (q.state = .ready) || (decide (q.state = .inflight) && home)

/-- What the request delivers if nothing but its own thread decides, from where it is. -/
def Job.outcome (job : Job V σ κ Row Fold Logits) (q : Seq Logits) (home : Bool) :
    Option (Engine V σ κ Row Fold × Nat) :=
  let setup := job.request.setup
  match job.point with
  | .entered | .solo | .soloQueued _ | .soloHolding =>
      some (engineGenerate { job.request with engine := job.engine, polls := job.polls })
  | .stepping prompt =>
      (prompt.or q.logits).map fun logits =>
        genEnd setup (remaining setup job.polls job.engine logits)
  | .handed tok pos =>
      some (genEnd setup (if job.polls.headD false then job.engine
        else remainingHanded setup job.polls.tail job.engine tok pos))
  | .submitting tok pos =>
      some (genEnd setup (remainingHanded setup job.polls job.engine tok pos))
  | .waiting tok pos =>
      if q.computed home then
        q.logits.map fun logits => genEnd setup (remaining setup job.polls job.engine logits)
      else some (genEnd setup (remainingHanded setup job.polls job.engine tok pos))
  | .ending => some (genEnd setup job.engine)
  | .soloGiving => some (job.engine, job.count)

section Points

variable {job : Job V σ κ Row Fold Logits} {q : Seq Logits} {home : Bool}

theorem outcome_entered (at' : job.point = .entered) : job.outcome q home =
    some (engineGenerate { job.request with engine := job.engine, polls := job.polls }) := by
  unfold Job.outcome
  rw [at']

theorem outcome_stepping {prompt : Option Logits} (at' : job.point = .stepping prompt) :
    job.outcome q home = (prompt.or q.logits).map fun logits =>
      genEnd job.request.setup (remaining job.request.setup job.polls job.engine logits) := by
  unfold Job.outcome
  rw [at']

theorem outcome_handed {tok pos : Nat} (at' : job.point = .handed tok pos) : job.outcome q home =
    some (genEnd job.request.setup (if job.polls.headD false then job.engine
      else remainingHanded job.request.setup job.polls.tail job.engine tok pos)) := by
  unfold Job.outcome
  rw [at']

theorem outcome_submitting {tok pos : Nat} (at' : job.point = .submitting tok pos) :
    job.outcome q home = some (genEnd job.request.setup
      (remainingHanded job.request.setup job.polls job.engine tok pos)) := by
  unfold Job.outcome
  rw [at']

theorem outcome_waiting {tok pos : Nat} (at' : job.point = .waiting tok pos)
    (busy : q.computed home = false) : job.outcome q home = some (genEnd job.request.setup
      (remainingHanded job.request.setup job.polls job.engine tok pos)) := by
  unfold Job.outcome
  rw [at', busy]
  rfl

theorem outcome_answered {tok pos : Nat} (at' : job.point = .waiting tok pos)
    (computed : q.computed home = true) : job.outcome q home = q.logits.map fun logits =>
      genEnd job.request.setup (remaining job.request.setup job.polls job.engine logits) := by
  unfold Job.outcome
  rw [at', computed]
  rfl

theorem outcome_ending (at' : job.point = .ending) :
    job.outcome q home = some (genEnd job.request.setup job.engine) := by
  unfold Job.outcome
  rw [at']

end Points

/-- No stop, and every decode returns the rows of `model_forward` on the same sequences. -/
structure Faithful (s : State V σ κ Row Fold Logits) (event : Event V σ κ Row Fold Logits) :
    Prop where
  serves : event ≠ .stop
  rows : ∀ ok rows kvs batch, event = .decode ok rows kvs → s.worker = .holding batch →
    ok = true ∧ ∀ entry ∈ batch, ∀ job, (s.slot entry.slot).job = some job →
      (∀ row, (entry, row) ∈ batch.zip rows →
        row = forwardHead job.request.setup.m.w job.engine.kv entry.tok entry.pos) ∧
      ∀ kv, (entry, kv) ∈ batch.zip kvs →
        kv = forward job.request.setup.m.w job.engine.kv entry.tok entry.pos

/-- Without a deadline, a request of this slot delivers what it delivers alone. -/
structure SoloSlot (home : Bool) (q : Seq Logits) (slot : Slot V σ κ Row Fold Logits) : Prop where
  ready : q.state = .ready → q.ok = true
  outcome : ∀ job, slot.job = some job → job.request.deadline ≤ 0 →
    job.outcome q home = some (engineGenerate job.request)
  results : ∀ r ∈ slot.results, r.1.deadline ≤ 0 → r.2 = engineGenerate r.1

/-- Whether the microbatch in hand, once decoded, was decoded. -/
def Worker.failed : Worker → Bool
  | .decoded _ ok | .given _ ok => !ok
  | _ => false

structure Solo (s : State V σ κ Row Fold Logits) : Prop where
  stop : s.stop = false
  hand : s.worker.failed = false
  slots : ∀ i, SoloSlot s.worker.home (s.seq i) (s.slot i)

/-! ## Steps of a slot thread -/

theorem Solo.change (solo : Solo s) {i : Nat} (change : Local s next i)
    (here : SoloSlot s.worker.home (next.seq i) (next.slot i)) : Solo next where
  stop := change.stop.trans solo.stop
  hand := by
    rw [change.worker]
    exact solo.hand
  slots j := by
    rw [change.worker]
    by_cases same : j = i
    · rw [same]
      exact here
    · rw [change.seq j same, change.slot j same]
      exact solo.slots j

/-- A thread moves on, and what it will deliver stays. -/
theorem SoloSlot.moves {home home' : Bool} {q q' : Seq Logits}
    {slot slot' : Slot V σ κ Row Fold Logits}
    (solo : SoloSlot home q slot) {job job' : Job V σ κ Row Fold Logits}
    (before : slot.job = some job) (after : slot'.job = some job')
    (ready : q'.state = .ready → q'.ok = true) (results : slot'.results = slot.results)
    (request : job'.request = job.request)
    (kept : job.request.deadline ≤ 0 → job'.outcome q' home' = job.outcome q home) :
    SoloSlot home' q' slot' where
  ready := ready
  outcome other same untimed := by
    rw [after] at same
    cases same
    rw [request] at untimed ⊢
    rw [kept untimed]
    exact solo.outcome job before untimed
  results := by
    rw [results]
    exact solo.results

theorem Solo.steps (solo : Solo s) {i : Nat} {job job' : Job V σ κ Row Fold Logits}
    (before : (s.slot i).job = some job) (request : job'.request = job.request)
    (kept : job.request.deadline ≤ 0 →
      job'.outcome (s.seq i) s.worker.home = job.outcome (s.seq i) s.worker.home) :
    Solo (s.setJob i job') := by
  apply solo.change (set_job_local i job')
  show SoloSlot s.worker.home (s.seq i) (Function.update s.slot i _ i)
  rw [Function.update_self]
  exact (solo.slots i).moves before rfl (solo.slots i).ready rfl request kept

theorem Solo.counters (solo : Solo s) (nActive : Int) (devNext devServing : Nat) :
    Solo { s with nActive := nActive, devNext := devNext, devServing := devServing } where
  stop := solo.stop
  hand := solo.hand
  slots := solo.slots

/-- A result is what the thread was to deliver. -/
theorem Solo.leaves (solo : Solo s) {i : Nat} {job : Job V σ κ Row Fold Logits}
    (before : (s.slot i).job = some job) (out : Engine V σ κ Row Fold × Nat)
    (delivers : job.outcome (s.seq i) s.worker.home = some out) :
    Solo { s with slot := Function.update s.slot i { s.slot i with
      job := none
      results := (job.request, out) :: (s.slot i).results } } := by
  apply solo.change (i := i)
  · constructor
    · rfl
    · rfl
    · rfl
    · rfl
    · rfl
    · intro _ _
      rfl
    · intro j other
      exact Function.update_of_ne other _ _
  · show SoloSlot s.worker.home (s.seq i) (Function.update s.slot i _ i)
    rw [Function.update_self]
    constructor
    · exact (solo.slots i).ready
    · intro other absurd
      cases absurd
    · intro r delivered untimed
      rcases List.mem_cons.mp delivered with same | old
      · rw [same] at untimed ⊢
        have promised := (solo.slots i).outcome job before untimed
        rw [delivers] at promised
        exact Option.some.inj promised
      · exact (solo.slots i).results r old untimed

theorem arrive_solo (solo : Solo s) {i : Nat} {request : Request V σ κ Row Fold Logits}
    (fired : arrive s i request = some next) : Solo next := by
  unfold arrive at fired
  cases idle : (s.slot i).job with
  | some job =>
      rw [idle] at fired
      cases fired
  | none =>
      rw [idle] at fired
      cases fired
      apply solo.change (i := i)
      · constructor
        · rfl
        · rfl
        · rfl
        · rfl
        · rfl
        · intro _ _
          rfl
        · intro j other
          exact Function.update_of_ne other _ _
      · show SoloSlot s.worker.home (s.seq i) (Function.update s.slot i _ i)
        rw [Function.update_self]
        constructor
        · exact (solo.slots i).ready
        · intro other same _
          cases same
          rfl
        · exact (solo.slots i).results

/-! ## The wait, without a deadline -/

theorem drop_solo (solo : Solo s) {i : Nat} {job : Job V σ κ Row Fold Logits}
    (timed : 0 < job.request.deadline) : Solo (s.drop i job) := by
  apply solo.change (drop_local i job)
  show SoloSlot s.worker.home (Function.update s.seq i _ i) (Function.update s.slot i _ i)
  rw [Function.update_self, Function.update_self]
  constructor
  · intro absurd
    cases absurd
  · intro other same untimed
    cases same
    exact absurd timed (Int.not_lt.mpr untimed)
  · exact (solo.slots i).results

theorem answer_solo (solo : Solo s) {i : Nat} {job : Job V σ κ Row Fold Logits} {tok pos : Nat}
    (before : (s.slot i).job = some job) (at' : job.point = .waiting tok pos)
    (ready : (s.seq i).state = .ready) : Solo (s.answer i job) := by
  have answered : s.answered i = true := by
    unfold State.answered
    rw [decide_eq_true ready, (solo.slots i).ready ready]
    rfl
  have computed : (s.seq i).computed s.worker.home = true := by
    unfold Seq.computed
    rw [decide_eq_true ready]
    rfl
  apply solo.change (answer_local i job)
  show SoloSlot s.worker.home (Function.update s.seq i _ i) (Function.update s.slot i _ i)
  rw [Function.update_self, Function.update_self, answered]
  apply (solo.slots i).moves before rfl
  · intro absurd
    cases absurd
  · rfl
  · rfl
  · intro _
    rw [outcome_answered at' computed]
    apply @outcome_stepping _ _ _ _ _ _ _ _ _ none
    rfl

theorem enqueue_solo (solo : Solo s) {i : Nat} {job : Job V σ κ Row Fold Logits} {tok pos : Nat}
    (before : (s.slot i).job = some job) (at' : job.point = .submitting tok pos) :
    Solo (s.enqueue i job tok pos) := by
  apply solo.change (enqueue_local i job tok pos)
  show SoloSlot s.worker.home (Function.update s.seq i _ i) (Function.update s.slot i _ i)
  rw [Function.update_self, Function.update_self]
  apply (solo.slots i).moves before rfl
  · intro absurd
    cases absurd
  · rfl
  · rfl
  · intro _
    rw [outcome_submitting at']
    exact outcome_waiting rfl rfl

theorem forward_turn_solo (solo : Solo s) {i : Nat} {job : Job V σ κ Row Fold Logits}
    {tok pos : Nat} (before : (s.slot i).job = some job) (at' : job.point = .waiting tok pos)
    (now : Int) : Solo (s.forwardTurn i job now) := by
  unfold State.forwardTurn
  split_ifs with open' late
  · exact drop_solo solo late.1
  · exact solo
  · apply answer_solo solo before at'
    by_contra busy
    exact open' ⟨busy, solo.stop⟩

theorem submit_solo (solo : Solo s) {i : Nat} {job : Job V σ κ Row Fold Logits} {tok pos : Nat}
    (before : (s.slot i).job = some job) (at' : job.point = .submitting tok pos) (now : Int) :
    Solo (s.forwardEnter i job tok pos now) := by
  have queued := enqueue_solo solo before at'
  have slotIs : ((s.enqueue i job tok pos).slot i).job =
      some { job with point := .waiting tok pos } := by
    show (Function.update s.slot i _ i).job = _
    rw [Function.update_self]
  exact forward_turn_solo queued slotIs rfl now

theorem fire_slot_solo (solo : Solo s) {i : Nat} {job : Job V σ κ Row Fold Logits}
    (before : (s.slot i).job = some job) {now : Int} {event : Event V σ κ Row Fold Logits}
    (fired : fireSlot s i job now event = some next) : Solo next := by
  cases event with
  | enter _ =>
      simp only [fireSlot] at fired
      split at fired
      · next at' =>
          split_ifs at fired with alone
          · cases fired
            apply solo.steps before
            · rfl
            · intro _
              unfold Job.outcome
              rw [at']
          · cases fired
            apply (solo.counters (s.nActive + 1) s.devNext s.devServing).steps before
            · rfl
            · intro _
              rw [outcome_entered at']
              unfold engineGenerate
              rw [if_neg alone]
              apply @outcome_stepping _ _ _ _ _ _ _ _ _ (some job.request.logits)
              rfl
      · cases fired
  | step _ =>
      simp only [fireSlot] at fired
      split at fired
      · next prompt at' =>
          split at fired
          · cases fired
          · next logits row =>
              split at fired
              · next e' done =>
                  cases fired
                  apply solo.steps before
                  · rfl
                  · intro _
                    rw [outcome_stepping at', row, Option.map_some, remaining_done job.polls done]
                    exact outcome_ending rfl
              · next e' tok pos more =>
                  cases fired
                  apply solo.steps before
                  · rfl
                  · intro _
                    rw [outcome_stepping at', row, Option.map_some, remaining_more job.polls more]
                    exact outcome_handed rfl
      · cases fired
  | check _ _ =>
      simp only [fireSlot] at fired
      split at fired
      · next tok pos at' =>
          split_ifs at fired with late cancelled
          · cases fired
            apply solo.steps before
            · rfl
            · intro untimed
              exact absurd late.1 (Int.not_lt.mpr untimed)
          · cases fired
            apply solo.steps before
            · rfl
            · intro _
              rw [outcome_handed at', if_pos cancelled]
              exact outcome_ending rfl
          · cases fired
            apply solo.steps before
            · rfl
            · intro _
              rw [outcome_handed at', if_neg cancelled]
              exact outcome_submitting rfl
      · cases fired
  | submit _ _ =>
      simp only [fireSlot] at fired
      split at fired
      · next tok pos at' =>
          cases fired
          exact submit_solo solo before at' now
      · cases fired
  | wake _ _ =>
      simp only [fireSlot] at fired
      split at fired
      · next tok pos at' =>
          cases fired
          exact forward_turn_solo solo before at' now
      · cases fired
  | finish _ =>
      simp only [fireSlot] at fired
      split at fired
      · next at' =>
          cases fired
          apply (solo.counters (s.nActive - 1) s.devNext s.devServing).leaves before
          exact outcome_ending at'
      · cases fired
  | _ => cases fired

theorem fire_solo_solo (solo : Solo s) {i : Nat} {job : Job V σ κ Row Fold Logits}
    (before : (s.slot i).job = some job) {event : Event V σ κ Row Fold Logits}
    (fired : fireSolo cfg s i job event = some next) : Solo next := by
  cases event with
  | soloTake _ =>
      simp only [fireSolo] at fired
      split at fired
      · next at' =>
          split_ifs at fired
          · cases fired
            apply (solo.counters s.nActive (s.devNext + 1) s.devServing).steps before
            · rfl
            · intro _
              unfold Job.outcome
              rw [at']
          · cases fired
            apply solo.steps before
            · rfl
            · intro _
              unfold Job.outcome
              rw [at']
      · cases fired
  | soloTurn _ =>
      simp only [fireSolo] at fired
      split at fired
      · next ticket at' =>
          split_ifs at fired
          cases fired
          apply solo.steps before
          · rfl
          · intro _
            unfold Job.outcome
            rw [at']
      · cases fired
  | soloRun _ =>
      simp only [fireSolo] at fired
      split at fired
      · next at' =>
          cases fired
          apply solo.steps before
          · rfl
          · intro _
            unfold Job.outcome
            rw [at']
      · cases fired
  | soloGive _ =>
      simp only [fireSolo] at fired
      split at fired
      · next at' =>
          cases fired
          apply (solo.counters s.nActive s.devNext
            (if cfg.deviceTurn then s.devServing + 1 else s.devServing)).leaves before
          unfold Job.outcome
          rw [at']
      · cases fired
  | _ => cases fired

/-! ## Steps of the decode thread -/

theorem outcome_congr {job : Job V σ κ Row Fold Logits} {q q' : Seq Logits} {home home' : Bool}
    (logits : q'.logits = q.logits)
    (computed : job.point.isWaiting = true → q'.computed home' = q.computed home) :
    job.outcome q' home' = job.outcome q home := by
  cases at' : job.point with
  | waiting tok pos =>
      have same := computed (by
        rw [at']
        rfl)
      cases before : q.computed home with
      | true =>
          rw [outcome_answered at' before, outcome_answered at' (same.trans before), logits]
      | false =>
          rw [outcome_waiting at' before, outcome_waiting at' (same.trans before)]
  | stepping prompt =>
      rw [outcome_stepping at', outcome_stepping at', logits]
  | _ =>
      unfold Job.outcome
      rw [at']

/-- The decode thread moves, and this slot has what it had. -/
theorem SoloSlot.passed {home home' : Bool} {q q' : Seq Logits} {slot : Slot V σ κ Row Fold Logits}
    (solo : SoloSlot home q slot) (logits : q'.logits = q.logits)
    (ready : q'.state = .ready → q'.ok = true)
    (computed : ∀ job, slot.job = some job → job.point.isWaiting = true →
      q'.computed home' = q.computed home) : SoloSlot home' q' slot where
  ready := ready
  outcome job here untimed := by
    rw [outcome_congr logits (computed job here)]
    exact solo.outcome job here untimed
  results := solo.results

/-- A slot that waits outside the microbatch is not in flight. -/
theorem SlotInv.away {v : View Logits} {i : Nat} {q : Seq Logits}
    {slot : Slot V σ κ Row Fold Logits} (inv : SlotInv v i q slot) (absent : Absent v i)
    {job : Job V σ κ Row Fold Logits} (here : slot.job = some job)
    (waits : job.point.isWaiting = true) : q.state ≠ .inflight := by
  intro inflight
  cases at' : job.point with
  | waiting tok pos =>
      rcases (inv.waiting job tok pos here at').2.2 with ⟨state, _⟩ | ⟨_, taken, _⟩ | ⟨state, _, _⟩
      · rw [inflight] at state
        cases state
      · exact absent (List.mem_map.mpr ⟨_, taken, rfl⟩)
      · rw [inflight] at state
        cases state
  | _ =>
      rw [at'] at waits
      cases waits

/-- Where the server runs, a slot of the microbatch waits for it. -/
theorem SlotInv.rides {v : View Logits} {i : Nat} {q : Seq Logits}
    {slot : Slot V σ κ Row Fold Logits} (inv : SlotInv v i q slot) (running : v.stop = false)
    (here : ¬ Absent v i) : ∃ job tok pos, slot.job = some job ∧ job.point = .waiting tok pos ∧
      q.state = .inflight ∧ ownEntry i slot job.number tok pos ∈ v.batch := by
  by_contra nobody
  apply here
  apply (inv.rests running ?_).2
  intro job same
  cases at' : job.point with
  | waiting tok pos =>
      exfalso
      rcases (inv.waiting job tok pos same at').2.2 with ⟨_, absent⟩ | ⟨state, taken, _⟩ |
        ⟨_, absent, _⟩
      · exact here absent
      · exact nobody ⟨job, tok, pos, same, at', state, taken⟩
      · exact here absent
  | _ => rfl

theorem computed_away {q : Seq Logits} (away : q.state ≠ .inflight) (home home' : Bool) :
    q.computed home = q.computed home' := by
  unfold Seq.computed
  rw [decide_eq_false away]
  rfl

theorem Solo.unseen (solo : Solo s) (worker : next.worker.home = s.worker.home)
    (hand : next.worker.failed = s.worker.failed) (stop : next.stop = s.stop)
    (seq : next.seq = s.seq) (slot : next.slot = s.slot) : Solo next where
  stop := stop.trans solo.stop
  hand := hand.trans solo.hand
  slots i := by
    rw [worker, seq, slot]
    exact solo.slots i

theorem cut_solo (solo : Solo s) (home : s.worker.home = false) : Solo (s.cutBatch cfg) where
  stop := cut_stop.trans solo.stop
  hand := by
    unfold State.cutBatch
    dsimp only
    split_ifs <;> rfl
  slots i := by
    have here := solo.slots i
    rw [home] at here
    rw [cut_home, cut_slot]
    by_cases inside : i ∈ s.waiting cfg
    · rw [cut_seq_hit inside]
      apply here.passed
      · rfl
      · intro absurd
        cases absurd
      · intro _ _ _
        unfold Seq.computed
        rw [(mem_waiting.mp inside).2]
        rfl
    · rw [cut_seq_miss inside]
      exact here

theorem gather_turn_solo (solo : Solo s) (home : s.worker.home = false)
    (hand : s.worker.failed = false) : Solo (s.gatherTurn cfg) := by
  unfold State.gatherTurn
  dsimp only
  generalize (if s.nActive < cfg.batchMax then s.nActive else (cfg.batchMax : Int)) = want
  split_ifs with full
  · exact cut_solo solo home
  · apply solo.unseen
    · exact home.symm
    · exact hand.symm
    · rfl
    · rfl
    · rfl

theorem work_turn_solo (solo : Solo s) (home : s.worker.home = false)
    (hand : s.worker.failed = false) : Solo (s.workTurn cfg) := by
  unfold State.workTurn
  split_ifs with stopped nobody
  · rw [solo.stop] at stopped
    cases stopped
  · exact solo
  · exact gather_turn_solo solo home hand

/-- The rows of the microbatch are the rows of `model_forward`, and so are the caches. -/
theorem decode_solo (inv : Inv cfg s) (solo : Solo s) {batch : List Entry}
    (hand : s.worker = .holding batch) {ok : Bool} {rows : List Logits} {kvs : List (Kv Row Fold)}
    (fullRows : rows.length = batch.length) (fullKvs : kvs.length = batch.length)
    (faithful : Faithful s (.decode ok rows kvs)) : Solo (s.decodeBatch batch ok rows kvs) := by
  rcases faithful.rows ok rows kvs batch rfl hand with ⟨success, exact'⟩
  have batchIs : s.worker.batch = batch := by
    rw [hand]
    rfl
  have homeIs : s.worker.home = false := by
    rw [hand]
    rfl
  have once : (batch.map Entry.slot).Nodup := by
    rw [← batchIs]
    exact inv.batch
  rw [success, decode_batch_eq]
  constructor
  · exact solo.stop
  · rfl
  · intro i
    show SoloSlot true (scatter Seq.withRow ((batch.map Entry.slot).zip rows) s.seq i)
      (scatter Slot.withKv ((batch.map Entry.slot).zip kvs) s.slot i)
    have here := solo.slots i
    rw [homeIs] at here
    by_cases absent : Absent s.view i
    · have outside : i ∉ batch.map Entry.slot := by
        rw [← batchIs]
        exact absent
      rw [scatter_miss, scatter_miss]
      · apply here.passed rfl here.ready
        intro job same waits
        exact computed_away ((inv.slots i).away absent same waits) true false
      · rw [zip_fst batch fullKvs]
        exact outside
      · rw [zip_fst batch fullRows]
        exact outside
    · rcases (inv.slots i).rides solo.stop absent with ⟨job, tok, pos, same, at', state, taken⟩
      have inside : ownEntry i (s.slot i) job.number tok pos ∈ batch := by
        rw [← batchIs]
        exact taken
      rcases own_row fullRows inside with ⟨row, wholeRow, partRow⟩
      rcases own_row fullKvs inside with ⟨kv, wholeKv, partKv⟩
      have onceRows : (((batch.map Entry.slot).zip rows).map Prod.fst).Nodup := by
        rw [zip_fst batch fullRows]
        exact once
      have onceKvs : (((batch.map Entry.slot).zip kvs).map Prod.fst).Nodup := by
        rw [zip_fst batch fullKvs]
        exact once
      have seqIs := scatter_hit Seq.withRow onceRows partRow s.seq
      have slotIs := scatter_hit Slot.withKv onceKvs partKv s.slot
      have rowIs := (exact' _ inside job same).1 row wholeRow
      have kvIs := (exact' _ inside job same).2 kv wholeKv
      rw [show (ownEntry i (s.slot i) job.number tok pos).slot = i from rfl] at seqIs slotIs
      rw [seqIs, slotIs]
      apply here.moves same
      · unfold Slot.withKv
        rw [same]
        rfl
      · intro ready
        rw [show ((s.seq i).withRow row).state = (s.seq i).state from rfl, state] at ready
        cases ready
      · rfl
      · rfl
      · intro _
        have busy : (s.seq i).computed false = false := by
          unfold Seq.computed
          rw [state]
          rfl
        have computed : ((s.seq i).withRow row).computed true = true := by
          unfold Seq.computed Seq.withRow
          rw [state]
          rfl
        have answered := @outcome_answered _ _ _ _ _ _
          { job with engine := { job.engine with kv := kv } } _ _ tok pos at' computed
        rw [outcome_waiting at' busy]
        apply answered.trans
        rw [rowIs, kvIs]
        rfl

theorem publish_solo (inv : Inv cfg s) (solo : Solo s) {batch : List Entry} {ok : Bool}
    (hand : s.worker = .given batch ok) : Solo (s.publish batch ok) := by
  have success : ok = true := by
    have held := solo.hand
    rw [hand] at held
    cases ok with
    | true => rfl
    | false => cases held
  have homeIs : s.worker.home = true := by
    rw [hand]
    exact success
  constructor
  · exact solo.stop
  · rfl
  · intro i
    have here := solo.slots i
    rw [homeIs] at here
    by_cases absent : Absent s.view i
    · rw [publish_miss hand absent]
      apply here.passed rfl here.ready
      intro job same waits
      exact computed_away ((inv.slots i).away absent same waits) false true
    · rw [publish_hit inv hand absent, success]
      apply here.passed
      · rfl
      · intro _
        rfl
      · intro job same _
        rcases (inv.slots i).rides solo.stop absent with ⟨_, _, _, _, _, state, _⟩
        unfold Seq.computed
        rw [state]
        rfl

theorem fire_worker_solo (inv : Inv cfg s) (solo : Solo s)
    {event : Event V σ κ Row Fold Logits} (faithful : Faithful s event)
    (fired : fireWorker cfg s event = some next) : Solo next := by
  cases event with
  | work =>
      simp only [fireWorker] at fired
      split at fired
      · next asleep =>
          cases fired
          apply work_turn_solo solo
          · rw [asleep]
            rfl
          · rw [asleep]
            rfl
      · cases fired
  | gather timedOut =>
      simp only [fireWorker] at fired
      split at fired
      · next gathering =>
          cases fired
          have home : s.worker.home = false := by
            rw [gathering]
            rfl
          cases timedOut with
          | true => exact cut_solo solo home
          | false =>
              apply gather_turn_solo solo home
              rw [gathering]
              rfl
      · cases fired
  | take =>
      simp only [fireWorker] at fired
      split at fired
      · next batch hand =>
          split_ifs at fired
          all_goals
            cases fired
            apply solo.unseen
            · rw [hand]
              rfl
            · rw [hand]
              rfl
            · rfl
            · rfl
            · rfl
      · cases fired
  | turn =>
      simp only [fireWorker] at fired
      split at fired
      · next batch ticket hand =>
          split_ifs at fired
          cases fired
          apply solo.unseen
          · rw [hand]
            rfl
          · rw [hand]
            rfl
          · rfl
          · rfl
          · rfl
      · cases fired
  | decode ok rows kvs =>
      simp only [fireWorker] at fired
      split at fired
      · next batch hand =>
          split_ifs at fired with full
          cases fired
          exact decode_solo inv solo hand full.1 full.2 faithful
      · cases fired
  | give =>
      simp only [fireWorker] at fired
      split at fired
      · next batch ok hand =>
          cases fired
          apply solo.unseen
          · rw [hand]
            rfl
          · rw [hand]
            rfl
          · rfl
          · rfl
          · rfl
      · cases fired
  | publish =>
      simp only [fireWorker] at fired
      split at fired
      · next batch ok hand =>
          cases fired
          exact publish_solo inv solo hand
      · cases fired
  | prefillBegin =>
      simp only [fireWorker] at fired
      split_ifs at fired
      all_goals
        cases fired
        exact solo.unseen rfl rfl rfl rfl rfl
  | prefillEnd ticket =>
      simp only [fireWorker] at fired
      split_ifs at fired
      all_goals
        cases fired
        exact solo.unseen rfl rfl rfl rfl rfl
  | stop => exact absurd rfl faithful.serves
  | _ => cases fired

theorem fire_keeps_solo (inv : Inv cfg s) (solo : Solo s) {event : Event V σ κ Row Fold Logits}
    (faithful : Faithful s event) (fired : fire cfg s event = some next) : Solo next := by
  rcases fire_cases fired with ⟨i, request, _, _, arrived⟩ | moved |
    ⟨i, now, job, _, _, here, slot | alone⟩
  · exact arrive_solo solo arrived
  · exact fire_worker_solo inv solo faithful moved
  · exact fire_slot_solo solo here slot
  · exact fire_solo_solo solo here alone

theorem starts_solo (starts : Starts s) : Solo s where
  stop := starts.stop
  hand := by
    rw [starts.worker]
    rfl
  slots i := by
    rw [starts.slot i]
    constructor
    · intro absurd
      rw [starts.seq i] at absurd
      cases absurd
    · intro job absurd
      cases absurd
    · intro r absurd
      cases absurd

/-- In a run that is served, every request without a deadline delivers what it delivers alone. -/
theorem served_solo (run : Reaches Starts (fire cfg) Faithful s) : Inv cfg s ∧ Solo s := by
  apply @Reaches.invariant _ _ _ _ _ (fun s => Inv cfg s ∧ Solo s) ?_ ?_ _ run
  · intro state starts
    exact ⟨starts_inv starts, starts_solo starts⟩
  · intro state after event both faithful fired
    exact ⟨fire_inv both.1 fired, fire_keeps_solo both.1 both.2 faithful fired⟩

end GridcoreRunner.Scheduler
