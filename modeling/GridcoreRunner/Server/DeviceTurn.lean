import GridcoreRunner.Runs
import GridcoreRunner.TicketLock

/-!
# The device turn

Prefill, embeddings, solo generation and the decode thread take turns on the device through a
turnstile of tickets. What a call does on the device is the list of its takes, forwards and gives,
whichever way it ends; the threads go through their lists in any interleaving. Tickets wrap at
`2 ^ 32`.
-/

namespace GridcoreRunner.DeviceTurn

open GridcoreRunner.Runs

set_option autoImplicit false

/-! ## The calls -/

inductive Act where
  | take
  | give
  | forward
  deriving Repr, DecidableEq

/-- `sched_on()` and `SCH.device_turn`, which stay as `sched_start` left them. -/
structure Flags where
  on : Bool
  deviceTurn : Bool

def Flags.both (f : Flags) : Bool := f.on && f.deviceTurn

def schedPrefillBegin (f : Flags) : List Act := if f.both then [.take] else []

def schedPrefillEnd (f : Flags) : List Act := if f.both then [.give] else []

def prefillYieldTurn (f : Flags) : List Act := schedPrefillEnd f ++ schedPrefillBegin f

/-- One microbatch of `decode_worker`. -/
def decodeWorker (f : Flags) : List Act :=
  (if f.deviceTurn then [.take] else []) ++ [.forward] ++ (if f.deviceTurn then [.give] else [])

/-- The loop of `engine_feed` with so many tokens left. It ends early where the context is full or
the client is gone, and yields between two chunks. -/
def feedLoop (nBatch nCtx : Nat) (yieldTurn : List Act) : Nat → Nat → Nat → List Bool → List Act
  | 0, _, _, _ => []
  | rounds + 1, pos, left, stops =>
      if left = 0 then []
      else if pos + min left nBatch > nCtx then []
      else if min left nBatch = left then [.forward]
      else if stops.headD false then [.forward]
      else .forward :: (yieldTurn ++ feedLoop nBatch nCtx yieldTurn rounds
        (pos + min left nBatch) (left - min left nBatch) stops.tail)

def engineFeed (nBatch nCtx : Nat) (yieldTurn : List Act) (pos n : Nat) (stops : List Bool) :
    List Act := feedLoop nBatch nCtx yieldTurn n pos n stops

/-- One input of an embeddings request: refused before any forward, or embedded in so many
forwards, with or without success. -/
inductive Embed where
  | refused
  | embedded (forwards : Nat) (ok : Bool)
  deriving Repr, DecidableEq

def embedLoop : List Embed → List Act
  | [] => []
  | .refused :: _ => []
  | .embedded forwards ok :: rest =>
      List.replicate forwards .forward ++ if ok then embedLoop rest else []

/-- The prefill of `run_completion`; forking a prefix may forward as well. -/
def runCompletion (f : Flags) (reuse nBatch nCtx pos n : Nat) (stops : List Bool) : List Act :=
  schedPrefillBegin f ++ List.replicate reuse .forward ++
    engineFeed nBatch nCtx (prefillYieldTurn f) pos n stops ++ schedPrefillEnd f

def runEmbeddings (f : Flags) (inputs : List Embed) : List Act :=
  schedPrefillBegin f ++ embedLoop inputs ++ schedPrefillEnd f

/-- `sched_generate` by the slot's own thread. A batched generation leaves its forwards to the
decode thread. -/
def schedGenerate (f : Flags) (wantsSpec : Bool) (forwards : Nat) : List Act :=
  if !f.on || wantsSpec then
    if !f.on || !f.deviceTurn then List.replicate forwards .forward
    else [.take] ++ List.replicate forwards .forward ++ [.give]
  else []

inductive Call where
  | decode
  | completion (reuse nBatch nCtx pos n : Nat) (stops : List Bool)
  | embeddings (inputs : List Embed)
  | generate (wantsSpec : Bool) (forwards : Nat)

def Call.acts (f : Flags) : Call → List Act
  | .decode => decodeWorker f
  | .completion reuse nBatch nCtx pos n stops => runCompletion f reuse nBatch nCtx pos n stops
  | .embeddings inputs => runEmbeddings f inputs
  | .generate wantsSpec forwards => schedGenerate f wantsSpec forwards

/-! ## The threads -/

/-- Within an action: a ticket taken and not served yet, or a forward that runs. -/
inductive Point where
  | between
  | waiting (mine : Nat)
  | forwarding
  deriving Repr, DecidableEq

/-- What is left of the call a thread is in, and whether a `dev_take` of its returned and no
`dev_give` since. -/
structure Thread where
  rest : List Act
  point : Point
  turn : Bool

/-- The orders of tickets and of turns are kept for the statements only. -/
structure State (T : Type*) where
  devNext : Nat
  devServing : Nat
  thread : T → Thread
  taken : List T
  granted : List T

variable {T : Type*} [DecidableEq T]

def ticketCount : Nat := 2 ^ 32

def State.set (s : State T) (t : T) (thread : Thread) : State T :=
  { s with thread := Function.update s.thread t thread }

/-- `dev_take` up to the wait. -/
def State.queue (s : State T) (t : T) (thread : Thread) : State T :=
  { s.set t thread with devNext := (s.devNext + 1) % ticketCount, taken := s.taken ++ [t] }

/-- `dev_take` returns. -/
def State.grant (s : State T) (t : T) (thread : Thread) : State T :=
  { s.set t thread with granted := s.granted ++ [t] }

/-- `dev_give`. -/
def State.serve (s : State T) (t : T) (thread : Thread) : State T :=
  { s.set t thread with devServing := (s.devServing + 1) % ticketCount }

inductive Event (T : Type*) where
  | call (t : T) (call : Call)
  | ticket (t : T)
  | served (t : T)
  | give (t : T)
  | launch (t : T)
  | finish (t : T)

def fire (f : Flags) (s : State T) : Event T → Option (State T)
  | .call t call =>
      match s.thread t with
      | ⟨[], .between, turn⟩ => some (s.set t ⟨call.acts f, .between, turn⟩)
      | _ => none
  | .ticket t =>
      match s.thread t with
      | ⟨.take :: rest, .between, turn⟩ =>
          some (s.queue t ⟨.take :: rest, .waiting s.devNext, turn⟩)
      | _ => none
  | .served t =>
      match s.thread t with
      | ⟨.take :: rest, .waiting mine, _⟩ =>
          if mine = s.devServing then some (s.grant t ⟨rest, .between, true⟩) else none
      | _ => none
  | .give t =>
      match s.thread t with
      | ⟨.give :: rest, .between, _⟩ => some (s.serve t ⟨rest, .between, false⟩)
      | _ => none
  | .launch t =>
      match s.thread t with
      | ⟨.forward :: rest, .between, turn⟩ =>
          some (s.set t ⟨.forward :: rest, .forwarding, turn⟩)
      | _ => none
  | .finish t =>
      match s.thread t with
      | ⟨.forward :: rest, .forwarding, turn⟩ => some (s.set t ⟨rest, .between, turn⟩)
      | _ => none

/-- Nobody is in a call, and the counters stand anywhere. -/
def Idle (s : State T) : Prop :=
  ∃ start < ticketCount, s = ⟨start, start, fun _ => ⟨[], .between, false⟩, [], []⟩

def State.waiting (s : State T) : Set T := { t | ∃ mine, (s.thread t).point = .waiting mine }

/-- Behind the event fewer than `2 ^ 32` threads wait. -/
def FewWait (f : Flags) (s : State T) (event : Event T) : Prop :=
  ∀ next, fire f s event = some next → next.waiting.encard < ticketCount

/-! ## Every call pairs its takes and gives -/

/-- Whether the turn is held behind an action; `none` where a second take, a give without a take or
a forward outside of the turn is not allowed. -/
def Act.turn (strict : Bool) : Bool → Act → Option Bool
  | false, .take => some true
  | true, .give => some false
  | held, .forward => if strict && !held then none else some held
  | _, _ => none

def turnAfter (strict : Bool) : Bool → List Act → Option Bool
  | held, [] => some held
  | held, act :: rest => (act.turn strict held).bind fun held => turnAfter strict held rest

theorem turn_after_append (strict held : Bool) (acts more : List Act) :
    turnAfter strict held (acts ++ more) =
      (turnAfter strict held acts).bind fun held => turnAfter strict held more := by
  induction acts generalizing held with
  | nil => rfl
  | cons act acts induction =>
      rw [List.cons_append, turnAfter, turnAfter]
      cases act.turn strict held with
      | none => rfl
      | some held => exact induction held

theorem turn_after_forwards {strict held : Bool} (inside : strict = true → held = true)
    (n : Nat) : turnAfter strict held (List.replicate n .forward) = some held := by
  have one : Act.turn strict held .forward = some held := by
    cases strict with
    | false => cases held <;> rfl
    | true =>
        rw [inside rfl]
        rfl
  induction n with
  | zero => rfl
  | succ n induction =>
      rw [List.replicate_succ, turnAfter, one]
      exact induction

theorem turn_after_feed {strict held : Bool} (inside : strict = true → held = true)
    {yieldTurn : List Act} (paired : turnAfter strict held yieldTurn = some held)
    (nBatch nCtx rounds pos left : Nat) (stops : List Bool) :
    turnAfter strict held (feedLoop nBatch nCtx yieldTurn rounds pos left stops) = some held := by
  have one : turnAfter strict held [.forward] = some held := turn_after_forwards inside 1
  induction rounds generalizing pos left stops with
  | zero => rfl
  | succ rounds induction =>
      rw [feedLoop]
      split_ifs
      · rfl
      · rfl
      · exact one
      · exact one
      · rw [← List.singleton_append, turn_after_append, one, Option.bind_some,
          turn_after_append, paired, Option.bind_some]
        exact induction _ _ _

theorem turn_after_embeds {strict held : Bool} (inside : strict = true → held = true)
    (inputs : List Embed) : turnAfter strict held (embedLoop inputs) = some held := by
  induction inputs with
  | nil => rfl
  | cons input inputs induction =>
      cases input with
      | refused => rfl
      | embedded forwards ok =>
          rw [embedLoop, turn_after_append, turn_after_forwards inside, Option.bind_some]
          cases ok with
          | true => exact induction
          | false => rfl

/-- However a call ends, it gives back the turn it took, and with both flags set every forward of
its stands inside. -/
theorem call_paired (f : Flags) (call : Call) :
    turnAfter f.both false (call.acts f) = some false := by
  rcases f with ⟨on, deviceTurn⟩
  have bracket {strict : Bool} {inner : List Act}
      (paired : turnAfter strict true inner = some true) :
      turnAfter strict false ([.take] ++ inner ++ [.give]) = some false := by
    rw [turn_after_append, List.singleton_append, turnAfter]
    have taken : Act.turn strict false .take = some true := rfl
    rw [taken, Option.bind_some, paired]
    rfl
  have loose {inner : List Act} (paired : turnAfter false false inner = some false) :
      turnAfter false false ([] ++ inner ++ []) = some false := by
    rw [List.nil_append, List.append_nil]
    exact paired
  cases call with
  | decode => cases on <;> cases deviceTurn <;> rfl
  | completion reuse nBatch nCtx pos n stops =>
      have inner {strict held : Bool} (inside : strict = true → held = true)
          {yieldTurn : List Act} (paired : turnAfter strict held yieldTurn = some held) :
          turnAfter strict held (List.replicate reuse .forward ++
            engineFeed nBatch nCtx yieldTurn pos n stops) = some held := by
        rw [turn_after_append, turn_after_forwards inside, Option.bind_some]
        exact turn_after_feed inside paired nBatch nCtx n pos n stops
      rw [Call.acts, runCompletion, List.append_assoc (schedPrefillBegin _)]
      cases on with
      | false => exact loose (inner id rfl)
      | true =>
          cases deviceTurn with
          | false => exact loose (inner id rfl)
          | true => exact bracket (inner (fun _ => rfl) rfl)
  | embeddings inputs =>
      cases on with
      | false => exact loose (turn_after_embeds id inputs)
      | true =>
          cases deviceTurn with
          | false => exact loose (turn_after_embeds id inputs)
          | true => exact bracket (turn_after_embeds (fun _ => rfl) inputs)
  | generate wantsSpec forwards =>
      cases on with
      | false => exact turn_after_forwards id forwards
      | true =>
          cases wantsSpec with
          | false => rfl
          | true =>
              cases deviceTurn with
              | false => exact turn_after_forwards id forwards
              | true => exact bracket (turn_after_forwards (fun _ => rfl) forwards)

/-! ## The turnstile is a ticket lock -/

def Thread.stage (thread : Thread) : TicketLock.Stage :=
  match thread.point with
  | .waiting mine => .queued mine
  | _ => if thread.turn then .inside else .out

/-- The threads and the counters as a lock. -/
def State.lock (s : State T) : TicketLock.Lock T where
  next := s.devNext
  serving := s.devServing
  stage := fun t => (s.thread t).stage
  taken := s.taken
  granted := s.granted

/-- A thread keeps to the pairing of its call, and does what its list says. -/
structure Thread.Paired (strict : Bool) (thread : Thread) : Prop where
  balanced : turnAfter strict thread.turn thread.rest = some false
  taking : ∀ mine, thread.point = .waiting mine → ∃ rest, thread.rest = .take :: rest
  running : thread.point = .forwarding → ∃ rest, thread.rest = .forward :: rest

theorem update_lock (s : State T) (t : T) (thread : Thread) :
    (s.set t thread).lock.stage = Function.update s.lock.stage t thread.stage := by
  funext u
  rw [State.lock, State.set]
  by_cases same : u = t
  · rw [same, Function.update_self]
    dsimp only
    rw [Function.update_self]
  · rw [Function.update_of_ne same]
    dsimp only
    rw [Function.update_of_ne same]
    rfl

/-- What holds in every state of a run. -/
structure Fine (f : Flags) (s : State T) : Prop where
  paired : ∀ t, (s.thread t).Paired f.both
  ordered : ∃ holder queue, TicketLock.Ordered ticketCount s.lock holder queue

theorem paired_set {f : Flags} {s : State T} (fine : Fine f s) {t : T} {thread : Thread}
    (paired : thread.Paired f.both) : ∀ u, ((s.set t thread).thread u).Paired f.both := by
  intro u
  rw [State.set]
  by_cases same : u = t
  · rw [same]
    dsimp only
    rw [Function.update_self]
    exact paired
  · dsimp only
    rw [Function.update_of_ne same]
    exact fine.paired u

/-- An event that leaves everyone's stage leaves the lock. -/
theorem lock_set_same {s : State T} {t : T} {thread : Thread}
    (same : thread.stage = (s.thread t).stage) : (s.set t thread).lock = s.lock := by
  have stage : (s.set t thread).lock.stage = s.lock.stage := by
    rw [update_lock, same]
    exact Function.update_eq_self t s.lock.stage
  rw [State.lock] at stage ⊢
  rw [State.lock] at stage
  dsimp only at stage
  rw [stage]
  rfl

theorem queue_lock {s : State T} {t : T} {thread : Thread}
    (stage : thread.stage = .queued s.devNext) :
    (s.queue t thread).lock = s.lock.take ticketCount t := by
  have moved := update_lock s t thread
  rw [stage] at moved
  exact congrArg (fun stage => (⟨(s.devNext + 1) % ticketCount, s.devServing, stage,
    s.taken ++ [t], s.granted⟩ : TicketLock.Lock T)) moved

theorem grant_lock {s : State T} {t : T} {thread : Thread} (stage : thread.stage = .inside) :
    (s.grant t thread).lock = s.lock.enter t := by
  have moved := update_lock s t thread
  rw [stage] at moved
  exact congrArg (fun stage => (⟨s.devNext, s.devServing, stage, s.taken,
    s.granted ++ [t]⟩ : TicketLock.Lock T)) moved

theorem serve_lock {s : State T} {t : T} {thread : Thread} (stage : thread.stage = .out) :
    (s.serve t thread).lock = s.lock.leave ticketCount t := by
  have moved := update_lock s t thread
  rw [stage] at moved
  exact congrArg (fun stage => (⟨s.devNext, (s.devServing + 1) % ticketCount, stage, s.taken,
    s.granted⟩ : TicketLock.Lock T)) moved

omit [DecidableEq T] in
theorem lock_waiting (s : State T) : s.lock.waiting = s.waiting := by
  ext t
  have stages : (∃ ticket, (s.thread t).stage = .queued ticket) ↔
      ∃ mine, (s.thread t).point = .waiting mine := by
    rw [Thread.stage]
    cases (s.thread t).point with
    | waiting mine => simp
    | between => cases (s.thread t).turn <;> simp
    | forwarding => cases (s.thread t).turn <;> simp
  exact stages

omit [DecidableEq T] in
theorem lock_stage (s : State T) {t : T} {thread : Thread} (shape : s.thread t = thread) :
    s.lock.stage t = thread.stage := congrArg Thread.stage shape

theorem turn_after_cons {strict held : Bool} {act : Act} {rest : List Act}
    (balanced : turnAfter strict held (act :: rest) = some false) :
    ∃ next, act.turn strict held = some next ∧ turnAfter strict next rest = some false :=
  Option.bind_eq_some_iff.mp balanced

theorem take_outside {strict held next : Bool} (turn : Act.turn strict held .take = some next) :
    held = false ∧ next = true := by
  cases held <;> cases turn
  exact ⟨rfl, rfl⟩

theorem give_inside {strict held next : Bool} (turn : Act.turn strict held .give = some next) :
    held = true ∧ next = false := by
  cases held <;> cases turn
  exact ⟨rfl, rfl⟩

theorem forward_inside {strict held next : Bool}
    (turn : Act.turn strict held .forward = some next) :
    next = held ∧ (strict = true → held = true) := by
  cases strict <;> cases held <;> cases turn <;> simp

theorem fire_fine {f : Flags} {s next : State T} {event : Event T} (fine : Fine f s)
    (few : FewWait f s event) (fired : fire f s event = some next) : Fine f next := by
  have room := few next fired
  obtain ⟨holder, queue, ordered⟩ := fine.ordered
  cases event with
  | call t call =>
      simp only [fire] at fired
      split at fired
      · next turn shape =>
          cases fired
          have paired := fine.paired t
          rw [shape] at paired
          have out : turn = false := Option.some.inj paired.balanced
          rw [out] at shape ⊢
          refine ⟨paired_set fine ⟨call_paired f call, fun mine wait => (nomatch wait),
            fun run => (nomatch run)⟩, holder, queue, ?_⟩
          rw [lock_set_same (by rw [shape]; rfl)]
          exact ordered
      · cases fired
  | ticket t =>
      simp only [fire] at fired
      split at fired
      · next rest turn shape =>
          cases fired
          have paired := fine.paired t
          rw [shape] at paired
          obtain ⟨after, taken, _⟩ := turn_after_cons paired.balanced
          obtain ⟨out, _⟩ := take_outside taken
          subst out
          refine ⟨paired_set fine ⟨paired.balanced, fun mine wait => ⟨rest, rfl⟩,
            fun run => (nomatch run)⟩, holder, queue ++ [t], ?_⟩
          rw [← lock_waiting, queue_lock rfl] at room
          rw [queue_lock rfl]
          exact ordered.take (lock_stage s shape) room
      · cases fired
  | served t =>
      simp only [fire] at fired
      split at fired
      · next rest mine turn shape =>
          split_ifs at fired with served
          cases fired
          have paired := fine.paired t
          rw [shape] at paired
          obtain ⟨after, taken, behind⟩ := turn_after_cons paired.balanced
          obtain ⟨_, held⟩ := take_outside taken
          subst held
          have ticket : s.lock.stage t = .queued s.lock.serving := by
            rw [lock_stage s shape, served]
            rfl
          obtain ⟨others, entered⟩ := ordered.enter ticket
          refine ⟨paired_set fine ⟨behind, fun mine wait => (nomatch wait),
            fun run => (nomatch run)⟩, some t, others, ?_⟩
          rw [grant_lock rfl]
          exact entered
      · cases fired
  | give t =>
      simp only [fire] at fired
      split at fired
      · next rest turn shape =>
          cases fired
          have paired := fine.paired t
          rw [shape] at paired
          obtain ⟨after, given, behind⟩ := turn_after_cons paired.balanced
          obtain ⟨held, out⟩ := give_inside given
          subst out
          have holds : turn = true := held
          subst holds
          refine ⟨paired_set fine ⟨behind, fun mine wait => (nomatch wait),
            fun run => (nomatch run)⟩, none, queue, ?_⟩
          rw [serve_lock rfl]
          exact ordered.leave (lock_stage s shape)
      · cases fired
  | launch t =>
      simp only [fire] at fired
      split at fired
      · next rest turn shape =>
          cases fired
          have paired := fine.paired t
          rw [shape] at paired
          refine ⟨paired_set fine ⟨paired.balanced, fun mine wait => (nomatch wait),
            fun run => ⟨rest, rfl⟩⟩, holder, queue, ?_⟩
          rw [lock_set_same (by rw [shape]; rfl)]
          exact ordered
      · cases fired
  | finish t =>
      simp only [fire] at fired
      split at fired
      · next rest turn shape =>
          cases fired
          have paired := fine.paired t
          rw [shape] at paired
          obtain ⟨after, forwarded, behind⟩ := turn_after_cons paired.balanced
          rw [(forward_inside forwarded).1] at behind
          refine ⟨paired_set fine ⟨behind, fun mine wait => (nomatch wait),
            fun run => (nomatch run)⟩, holder, queue, ?_⟩
          rw [lock_set_same (by rw [shape]; rfl)]
          exact ordered
      · cases fired

omit [DecidableEq T] in
theorem idle_fine {f : Flags} {s : State T} (idle : Idle s) : Fine f s := by
  obtain ⟨start, small, shape⟩ := idle
  subst shape
  refine ⟨fun t => ⟨rfl, fun mine wait => (nomatch wait), fun run => (nomatch run)⟩, none, [], ?_⟩
  exact TicketLock.ordered_start small

/-- The runs from an idle turnstile in which fewer than `2 ^ 32` threads wait. -/
abbrev Run (f : Flags) : State T → Prop := Reaches Idle (fire f) (FewWait f)

theorem run_fine {f : Flags} {s : State T} (run : Run f s) : Fine f s :=
  run.invariant (fun _ => idle_fine) fun _ _ _ fine few fired => fire_fine fine few fired

/-- The turn is exclusive and granted in the order of the tickets, whoever gives it holds it, and
with the turn on no two forwards run at once. -/
theorem device_turn_exclusive (f : Flags) {s : State T} (run : Run f s) :
    (∀ t u, (s.thread t).turn = true → (s.thread u).turn = true → t = u) ∧
      s.granted <+: s.taken ∧
        (∀ t next, fire f s (.give t) = some next → (s.thread t).turn = true) ∧
          (f.both = true → ∀ t u, (s.thread t).point = .forwarding →
            (s.thread u).point = .forwarding → t = u) := by
  have fine := run_fine run
  obtain ⟨holder, queue, ordered⟩ := fine.ordered
  have inside {t : T} (turn : (s.thread t).turn = true) : s.lock.stage t = .inside := by
    have paired := fine.paired t
    rcases shape : s.thread t with ⟨rest, point, held⟩
    rw [shape] at turn paired
    rw [lock_stage s shape, Thread.stage]
    cases point with
    | between => exact if_pos turn
    | forwarding => exact if_pos turn
    | waiting mine =>
        obtain ⟨others, taking⟩ := paired.taking mine rfl
        have balanced := paired.balanced
        rw [taking] at balanced
        obtain ⟨_, taken, _⟩ := turn_after_cons balanced
        have out := (take_outside taken).1
        dsimp only at turn out
        rw [turn] at out
        cases out
  have exclusive {t u : T} (first : (s.thread t).turn = true)
      (second : (s.thread u).turn = true) : t = u := ordered.exclusive (inside first) (inside second)
  refine ⟨fun t u => exclusive, ordered.fair, ?_, ?_⟩
  · intro t next fired
    simp only [fire] at fired
    split at fired
    · next rest turn shape =>
        have balanced := (fine.paired t).balanced
        rw [shape] at balanced ⊢
        obtain ⟨_, given, _⟩ := turn_after_cons balanced
        exact (give_inside given).1
    · cases fired
  · intro both t u first second
    have holds {v : T} (forwarding : (s.thread v).point = .forwarding) :
        (s.thread v).turn = true := by
      obtain ⟨rest, shape⟩ := (fine.paired v).running forwarding
      have balanced := (fine.paired v).balanced
      rw [shape] at balanced
      obtain ⟨_, forwarded, _⟩ := turn_after_cons balanced
      exact (forward_inside forwarded).2 both
    exact exclusive (holds first) (holds second)

/-- The decode thread and a prefill of two chunks around the wrap of the tickets: the prefill waits
for the microbatch, forwards once and asks again behind its yield. -/
def aroundTheWrap : State Bool :=
  play (fire ⟨true, true⟩)
    ⟨2 ^ 32 - 1, 2 ^ 32 - 1, fun _ => ⟨[], .between, false⟩, [], []⟩
    [.call false .decode, .call true (.completion 0 1 8 0 2 []), .ticket false, .ticket true,
      .served false, .launch false, .finish false, .give false, .served true, .launch true,
      .finish true, .give true, .call false .decode, .ticket false, .ticket true]

theorem around_the_wrap_in_order :
    aroundTheWrap.granted = [false, true] ∧ aroundTheWrap.taken = [false, true, false, true] ∧
      aroundTheWrap.granted <+: aroundTheWrap.taken := by
  have few (s : State Bool) (event : Event Bool) : FewWait ⟨true, true⟩ s event := by
    intro next _
    have most : next.waiting.encard ≤ (Set.univ : Set Bool).encard :=
      Set.encard_le_encard (Set.subset_univ _)
    refine most.trans_lt ?_
    rw [Set.encard_univ, ENat.card_eq_coe_fintype_card, Fintype.card_bool]
    exact_mod_cast (by decide : 2 < ticketCount)
  have run : Run ⟨true, true⟩ aroundTheWrap :=
    (Reaches.start _ ⟨_, by decide, rfl⟩).plays _ (fun event _ before => few before event) rfl
  exact ⟨rfl, rfl, (device_turn_exclusive ⟨true, true⟩ run).2.1⟩

end GridcoreRunner.DeviceTurn
