import GridcoreRunner.RingBuffer
import GridcoreRunner.Runs
import GridcoreRunner.Scatter
import Mathlib.Data.List.Perm.Basic

/-!
# Admission

Between the accept loop and the slot workers stands a queue of connections: `q_push`, `q_pop`
and `queue_shutdown`. A critical section of the queue's mutex is one step; the accept loop and
the workers take their steps in any order. Connections are numbered in the order in which they
were accepted.
-/

namespace GridcoreRunner.Admission

set_option autoImplicit false

open Table RingBuffer

/-! ## The queue -/

/-- `sizeof(SV.q.fds) / sizeof(sock_t)`. -/
def places : Nat := 512

/-- `SV.q`, with the limit that `server_main` has set. -/
structure Queue where
  fds : Nat → Nat
  head : Nat
  tail : Nat
  count : Nat
  limit : Nat
  shutdown : Bool

/-- The connections that wait, in their order. -/
def Queue.waiting (q : Queue) : List Nat := held places q.fds q.head q.count

/-- The critical section of `q_push` where there is room. -/
def Queue.push (q : Queue) (fd : Nat) : Queue :=
  { q with
    fds := Function.update q.fds q.tail fd
    tail := (q.tail + 1) % places
    count := q.count + 1 }

/-- The critical section of `q_pop` where something waits. -/
def Queue.pop (q : Queue) : Nat × Queue :=
  (q.fds q.head, { q with head := (q.head + 1) % places, count := q.count - 1 })

/-- The loop of `queue_shutdown`. -/
def Queue.drain : Nat → Queue → List Nat → List Nat × Queue
  | 0, q, pending => (pending, q)
  | more + 1, q, pending => Queue.drain more q.pop.2 (pending ++ [q.pop.1])

/-! ## The threads -/

/-- Where a `slot_worker` is. -/
inductive Seat where
  | entering
  | asleep
  | woken
  | serving (fd : Nat)
  | gone
  deriving DecidableEq, Repr

/-- About to look at the queue. -/
def Seat.coming : Seat → Bool
  | .entering | .woken => true
  | _ => false

def Seat.hand : Seat → Option Nat
  | .serving fd => some fd
  | _ => none

/-- Where the accept loop is: between two connections, in `q_push` after so many looks, before
the answer that the queue is full, or in `queue_shutdown` with the connections it has still to
turn away. -/
inductive Acceptor where
  | idle
  | pushing (fd looks : Nat)
  | full (fd : Nat)
  | stopping (pending : List Nat)
  deriving DecidableEq, Repr

def Acceptor.hand : Acceptor → List Nat
  | .pushing fd _ => [fd]
  | .full fd => [fd]
  | _ => []

def Acceptor.pending : Acceptor → List Nat
  | .stopping pending => pending
  | _ => []

/-- The server's admission, with what has become of the connections: `pushed` and `popped` in
the order of the queue's steps, `answered` by the accept loop, `shed` with a full queue,
`turnedAway` at the shutdown, and `served` by a worker. -/
structure State where
  q : Queue
  workers : Nat → Seat
  acceptor : Acceptor
  accepted : Nat
  pushed : List Nat
  popped : List Nat
  answered : List Nat
  shed : List Nat
  turnedAway : List Nat
  served : List Nat

inductive Event where
  /-- `accept()` has returned a connection, and the fast path has answered it or not. -/
  | accept (fast : Bool)
  /-- A look of `q_push` at the queue; `who` is the sleeper that the signal wakes. -/
  | look (who : Nat)
  | answerFull
  | shutdown
  | turnAway
  /-- A worker's critical section in `q_pop`. -/
  | worker (i : Nat)
  /-- A sleeping worker wakes by itself. -/
  | wakes (i : Nat)
  | finish (i : Nat)
  deriving DecidableEq, Repr

section Steps

variable (n : Nat) (s : State)

def State.seat (i : Nat) (seat : Seat) : State :=
  { s with workers := Function.update s.workers i seat }

/-- How often `q_push` looks. -/
def looksMax : Nat := 10

/-- A signal on `cv` wakes a sleeper, where there is one. -/
def signals (who : Nat) : Option (Nat → Seat) :=
  if who < n ∧ s.workers who = .asleep then some (Function.update s.workers who .woken)
  else if (List.range n).all fun i => s.workers i ≠ .asleep then some s.workers
  else none

def look (who : Nat) : Option State :=
  match s.acceptor with
  | .pushing fd looks =>
      if s.q.count < s.q.limit then
        (signals n s who).map fun workers =>
          { s with
            q := s.q.push fd
            workers := workers
            acceptor := .idle
            pushed := s.pushed ++ [fd] }
      else if looks + 1 < looksMax then some { s with acceptor := .pushing fd (looks + 1) }
      else some { s with acceptor := .full fd }
  | _ => none

def qPop (i : Nat) : Option State :=
  if (s.workers i).coming = true then
    if s.q.count = 0 ∧ s.q.shutdown = false then some (s.seat i .asleep)
    else if 0 < s.q.count then
      some { s.seat i (.serving s.q.pop.1) with
        q := s.q.pop.2
        popped := s.popped ++ [s.q.pop.1] }
    else some (s.seat i .gone)
  else none

def roused : Seat → Seat
  | .asleep => .woken
  | seat => seat

def queueShutdown : Option State :=
  match s.acceptor with
  | .idle =>
      let drained := Queue.drain s.q.count s.q []
      some { s with
        q := { drained.2 with shutdown := true }
        workers := fun i => roused (s.workers i)
        acceptor := .stopping drained.1 }
  | _ => none

def fire : Event → Option State
  | .accept fast =>
      match s.acceptor with
      | .idle =>
          if fast then
            some { s with accepted := s.accepted + 1, answered := s.answered ++ [s.accepted] }
          else some { s with accepted := s.accepted + 1, acceptor := .pushing s.accepted 0 }
      | _ => none
  | .look who => look n s who
  | .answerFull =>
      match s.acceptor with
      | .full fd => some { s with acceptor := .idle, shed := s.shed ++ [fd] }
      | _ => none
  | .shutdown => queueShutdown s
  | .turnAway =>
      match s.acceptor with
      | .stopping (fd :: pending) =>
          some { s with acceptor := .stopping pending, turnedAway := s.turnedAway ++ [fd] }
      | _ => none
  | .worker i => if i < n then qPop s i else none
  | .wakes i =>
      if i < n ∧ s.workers i = .asleep then some (s.seat i .woken) else none
  | .finish i =>
      if i < n then
        match s.workers i with
        | .serving fd => some { s.seat i .entering with served := s.served ++ [fd] }
        | _ => none
      else none

/-- The server before the first connection. -/
def Started : Prop :=
  s.q.head = 0 ∧ s.q.tail = 0 ∧ s.q.count = 0 ∧ 1 ≤ s.q.limit ∧ s.q.limit ≤ places ∧
    s.q.shutdown = false ∧ (∀ i, s.workers i = .entering) ∧ s.acceptor = .idle ∧
    s.accepted = 0 ∧ s.pushed = [] ∧ s.popped = [] ∧ s.answered = [] ∧ s.shed = [] ∧
    s.turnedAway = [] ∧ s.served = []

/-- What the workers are serving. -/
def inHands : List Nat := (List.range n).filterMap fun i => (s.workers i).hand

end Steps

end GridcoreRunner.Admission
