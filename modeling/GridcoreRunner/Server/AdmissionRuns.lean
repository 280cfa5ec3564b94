import GridcoreRunner.Server.Admission

/-!
# Runs of the admission

The ring is a queue: what is pushed is what has been popped, what has been turned away, and what
waits, in this order. No accepted connection is lost and none is in two places. And a worker
sleeps only while every connection that waits has another worker coming for it.
-/

namespace GridcoreRunner.Admission

set_option autoImplicit false

open Table RingBuffer Runs

variable {n : Nat} {s : State}

/-! ## The ring -/

/-- The tail is where the list in the ring ends. -/
structure Queue.Fine (q : Queue) : Prop where
  head : q.head < places
  tail : q.tail = (q.head + q.count) % places
  room : q.count ≤ q.limit
  limit : q.limit ≤ places

theorem Queue.Fine.push {q : Queue} (fine : q.Fine) (room : q.count < q.limit) (fd : Nat) :
    (q.push fd).Fine ∧ (q.push fd).waiting = q.waiting ++ [fd] := by
  have below : q.count < places := Nat.lt_of_lt_of_le room fine.limit
  constructor
  · constructor
    · exact fine.head
    · unfold Queue.push
      simp only [fine.tail]
      exact next_tail q.head q.count
    · exact room
    · exact fine.limit
  · unfold Queue.push Queue.waiting
    simp only [fine.tail]
    exact held_push below q.fds fd

theorem Queue.Fine.pop {q : Queue} (fine : q.Fine) (some' : 0 < q.count) :
    q.pop.2.Fine ∧ q.waiting = q.pop.1 :: q.pop.2.waiting := by
  obtain ⟨count, same⟩ : ∃ count, q.count = count + 1 := ⟨q.count - 1, by omega⟩
  constructor
  · constructor
    · exact Nat.mod_lt _ (by decide)
    · unfold Queue.pop
      simp only [fine.tail, same, Nat.add_sub_cancel]
      exact (tail_after_pop q.head count).symm
    · have room := fine.room
      unfold Queue.pop
      simp only
      omega
    · exact fine.limit
  · unfold Queue.waiting Queue.pop
    simp only [same, Nat.add_sub_cancel]
    rw [held_pop, Nat.mod_eq_of_lt fine.head]

theorem drain_all {k : Nat} {q : Queue} (fine : q.Fine) (all : q.count = k) (pending : List Nat) :
    (Queue.drain k q pending).1 = pending ++ q.waiting ∧
      (Queue.drain k q pending).2.Fine ∧ (Queue.drain k q pending).2.count = 0 ∧
      (Queue.drain k q pending).2.limit = q.limit := by
  induction k generalizing q pending with
  | zero =>
      have none' : q.waiting = [] := by
        unfold Queue.waiting
        rw [all]
        rfl
      rw [none', List.append_nil]
      exact ⟨rfl, fine, all, rfl⟩
  | succ k induction =>
      obtain ⟨popped, front⟩ := fine.pop (by omega)
      have rest : q.pop.2.count = k := by
        unfold Queue.pop
        simp only
        omega
      obtain ⟨list, after, none', limit⟩ := induction popped rest (pending ++ [q.pop.1])
      rw [front]
      rw [List.append_assoc, List.singleton_append] at list
      exact ⟨list, after, none', limit⟩

/-! ## The workers' hands -/

theorem hands_update (n : Nat) (workers : Nat → Seat) {i : Nat} (inside : i < n) (seat : Seat) :
    ((List.range n).filterMap (fun j => (Function.update workers i seat j).hand) ++
        (workers i).hand.toList).Perm
      ((List.range n).filterMap (fun j => (workers j).hand) ++ seat.hand.toList) := by
  induction n with
  | zero => exact absurd inside (Nat.not_lt_zero i)
  | succ n induction =>
      have last : ∀ table : Nat → Seat, (List.range (n + 1)).filterMap (fun j => (table j).hand) =
          (List.range n).filterMap (fun j => (table j).hand) ++ (table n).hand.toList := by
        intro table
        rw [List.range_succ, List.filterMap_append]
        congr 1
      rw [last, last]
      by_cases here : i = n
      · subst here
        have before : (List.range i).filterMap (fun j => (Function.update workers i seat j).hand) =
            (List.range i).filterMap (fun j => (workers j).hand) := by
          apply List.filterMap_congr
          intro j below
          rw [Function.update_of_ne]
          have lower := List.mem_range.mp below
          omega
        rw [before, Function.update_self, List.append_assoc, List.append_assoc]
        exact List.Perm.append_left _ List.perm_append_comm
      · rw [Function.update_of_ne (Ne.symm here)]
        have earlier := induction (by omega)
        have moved : ∀ a b c : List Nat, (a ++ b ++ c).Perm (a ++ c ++ b) := by
          intro a b c
          rw [List.append_assoc, List.append_assoc]
          exact List.Perm.append_left a List.perm_append_comm
        exact (moved _ _ _).trans ((earlier.append_right _).trans (moved _ _ _))

/-! ## The invariant -/

structure Inv (n : Nat) (s : State) : Prop where
  ring : s.q.Fine
  order : s.pushed = s.popped ++ s.turnedAway ++ s.acceptor.pending ++ s.q.waiting
  stopping : s.q.shutdown = true → ∃ pending, s.acceptor = .stopping pending
  running : s.q.shutdown = false → s.turnedAway = [] ∧ s.acceptor.pending = []
  drained : s.q.shutdown = true → s.q.count = 0
  kept : (List.range s.accepted).Perm (s.pushed ++ s.answered ++ s.shed ++ s.acceptor.hand)
  hands : s.popped.Perm (s.served ++ inHands n s)
  comes : ∀ i < n, s.workers i = .asleep → s.q.count ≤ count Seat.coming n s.workers
  awake : s.q.shutdown = true → ∀ i < n, s.workers i ≠ .asleep

theorem started_inv (started : Started s) : Inv n s := by
  obtain ⟨head, tail, count, _, limit, shutdown, workers, acceptor, accepted, pushed, popped,
    answered, shed, turned, served⟩ := started
  have none' : s.q.waiting = [] := by
    unfold Queue.waiting
    rw [count]
    rfl
  have idle : inHands n s = [] := by
    unfold inHands
    rw [List.filterMap_eq_nil_iff]
    intro i _
    rw [workers i]
    rfl
  constructor
  · constructor
    · rw [head]
      decide
    · rw [tail, head, count]
      rfl
    · rw [count]
      exact Nat.zero_le _
    · exact limit
  · rw [pushed, popped, turned, acceptor, none']
    rfl
  · intro stopped
    rw [shutdown] at stopped
    cases stopped
  · intro _
    rw [acceptor]
    exact ⟨turned, rfl⟩
  · intro _
    exact count
  · rw [accepted, pushed, answered, shed, acceptor]
    exact List.Perm.refl _
  · rw [popped, served, idle]
    exact List.Perm.refl _
  · intro i _ asleep
    rw [workers i] at asleep
    cases asleep
  · intro stopped
    rw [shutdown] at stopped
    cases stopped

/-! ## The steps of the workers -/

section Workers

variable (inv : Inv n s) {i : Nat} (inside : i < n)
include inv inside

/-- A worker changes its seat, with nothing taken or given. -/
theorem Inv.reseats {seat : Seat} (empty : (s.workers i).hand = none) (still : seat.hand = none)
    (comes : ∀ j < n, Function.update s.workers i seat j = .asleep →
      s.q.count ≤ count Seat.coming n (Function.update s.workers i seat))
    (awake : s.q.shutdown = true → seat ≠ .asleep) : Inv n (s.seat i seat) := by
  refine ⟨inv.ring, inv.order, inv.stopping, inv.running, inv.drained, inv.kept, ?_, comes, ?_⟩
  · have changed := hands_update n s.workers inside seat
    rw [empty, still] at changed
    simp only [Option.toList_none, List.append_nil] at changed
    exact inv.hands.trans (List.Perm.append_left _ changed.symm)
  · intro stopped j below
    by_cases same : j = i
    · rw [same]
      simp only [State.seat, Function.update_self]
      exact awake stopped
    · simp only [State.seat, Function.update_of_ne same]
      exact inv.awake stopped j below

theorem Inv.pops (coming : (s.workers i).coming = true) (some' : 0 < s.q.count) :
    Inv n { s.seat i (.serving s.q.pop.1) with
      q := s.q.pop.2
      popped := s.popped ++ [s.q.pop.1] } := by
  obtain ⟨ring, front⟩ := inv.ring.pop some'
  have open' : s.q.shutdown = false := by
    cases flag : s.q.shutdown with
    | false => rfl
    | true =>
        have none' := inv.drained flag
        omega
  have empty : (s.workers i).hand = none := by
    cases seat : s.workers i with
    | entering => rfl
    | woken => rfl
    | _ =>
        rw [seat] at coming
        cases coming
  obtain ⟨turned, pending⟩ := inv.running open'
  constructor
  · exact ring
  · have order := inv.order
    rw [turned, pending, front] at order
    simp only [State.seat, turned, pending]
    rw [order]
    simp only [List.append_nil, List.append_assoc, List.singleton_append]
  · exact inv.stopping
  · exact inv.running
  · intro stopped
    have flag : s.q.shutdown = true := stopped
    rw [open'] at flag
    cases flag
  · exact inv.kept
  · have changed := hands_update n s.workers inside (.serving s.q.pop.1)
    rw [empty] at changed
    simp only [Option.toList_none, List.append_nil, Seat.hand, Option.toList_some] at changed
    have taken := (inv.hands.append_right [s.q.pop.1])
    rw [List.append_assoc] at taken
    exact taken.trans (List.Perm.append_left _ changed.symm)
  · intro j below asleep
    have changed := count_update Seat.coming inside s.workers (.serving s.q.pop.1)
    rw [coming] at changed
    have other : j ≠ i := by
      intro same
      rw [same] at asleep
      simp only [State.seat, Function.update_self] at asleep
      cases asleep
    simp only [State.seat, Function.update_of_ne other] at asleep
    have before := inv.comes j below asleep
    have gone : (Seat.serving s.q.pop.1).coming = false := rfl
    rw [gone] at changed
    simp only [if_true, Bool.false_eq_true, if_false] at changed
    have fewer : s.q.pop.2.count = s.q.count - 1 := rfl
    simp only [State.seat, fewer]
    omega
  · intro stopped
    have flag : s.q.shutdown = true := stopped
    rw [open'] at flag
    cases flag

theorem Inv.q_pop {s' : State} (fired : qPop s i = some s') : Inv n s' := by
  unfold qPop at fired
  by_cases coming : (s.workers i).coming = true
  · rw [if_pos coming] at fired
    have empty : (s.workers i).hand = none := by
      cases seat : s.workers i with
      | entering => rfl
      | woken => rfl
      | _ =>
          rw [seat] at coming
          cases coming
    by_cases nothing : s.q.count = 0 ∧ s.q.shutdown = false
    · rw [if_pos nothing, Option.some.injEq] at fired
      rw [← fired]
      apply inv.reseats inside empty rfl
      · intro j _ _
        rw [nothing.1]
        exact Nat.zero_le _
      · intro stopped
        rw [nothing.2] at stopped
        cases stopped
    · rw [if_neg nothing] at fired
      by_cases some' : 0 < s.q.count
      · rw [if_pos some', Option.some.injEq] at fired
        rw [← fired]
        exact inv.pops inside coming some'
      · rw [if_neg some', Option.some.injEq] at fired
        rw [← fired]
        apply inv.reseats inside empty rfl
        · intro j _ _
          have none' := Nat.eq_zero_of_not_pos some'
          rw [none']
          exact Nat.zero_le _
        · intro _ same
          cases same
  · rw [if_neg coming] at fired
    cases fired

theorem Inv.wakes (asleep : s.workers i = .asleep) : Inv n (s.seat i .woken) := by
  apply inv.reseats inside (by rw [asleep]; rfl) rfl
  · intro j _ _
    have changed := count_update Seat.coming inside s.workers .woken
    have before := inv.comes i inside asleep
    rw [asleep] at changed
    simp only [Seat.coming, Bool.false_eq_true, if_false, if_true] at changed
    omega
  · intro _ same
    cases same

theorem Inv.finishes {fd : Nat} (serving : s.workers i = .serving fd) :
    Inv n { s.seat i .entering with served := s.served ++ [fd] } := by
  refine ⟨inv.ring, inv.order, inv.stopping, inv.running, inv.drained, inv.kept, ?_, ?_, ?_⟩
  · have changed := hands_update n s.workers inside .entering
    rw [serving] at changed
    simp only [Seat.hand, Option.toList_some, Option.toList_none, List.append_nil] at changed
    have rest : (s.served ++ inHands n s).Perm
        (s.served ++ [fd] ++ inHands n (s.seat i .entering)) := by
      rw [List.append_assoc]
      apply List.Perm.append_left
      exact changed.symm.trans List.perm_append_comm
    exact inv.hands.trans rest
  · intro j below asleep
    have changed := count_update Seat.coming inside s.workers .entering
    have other : j ≠ i := by
      intro same
      rw [same] at asleep
      simp only [State.seat, Function.update_self] at asleep
      cases asleep
    simp only [State.seat, Function.update_of_ne other] at asleep
    have before := inv.comes j below asleep
    rw [serving] at changed
    simp only [Seat.coming, Bool.false_eq_true, if_false, if_true] at changed
    simp only [State.seat]
    omega
  · intro stopped j below
    by_cases same : j = i
    · rw [same]
      simp only [State.seat, Function.update_self]
      intro asleep
      cases asleep
    · simp only [State.seat, Function.update_of_ne same]
      exact inv.awake stopped j below

end Workers

/-! ## The steps of the accept loop -/

theorem roused_hand (seat : Seat) : (roused seat).hand = seat.hand := by
  cases seat <;> rfl

theorem roused_awake (seat : Seat) : roused seat ≠ .asleep := by
  cases seat <;> intro same <;> cases same

section Acceptor

variable (inv : Inv n s)
include inv

/-- Nothing is turned away while connections are still taken in. -/
theorem Inv.open_loop (notStopping : ∀ pending, s.acceptor ≠ .stopping pending) :
    s.q.shutdown = false := by
  cases flag : s.q.shutdown with
  | false => rfl
  | true =>
      obtain ⟨pending, stopping⟩ := inv.stopping flag
      exact absurd stopping (notStopping pending)

/-- The accept loop moves a connection along, or takes in a new one. -/
theorem Inv.takes {acceptor : Acceptor} {accepted : Nat} {answered shed : List Nat}
    (open' : s.q.shutdown = false) (calm : acceptor.pending = [])
    (kept : (List.range accepted).Perm (s.pushed ++ answered ++ shed ++ acceptor.hand)) :
    Inv n { s with
      acceptor := acceptor
      accepted := accepted
      answered := answered
      shed := shed } := by
  obtain ⟨turned, pending⟩ := inv.running open'
  constructor
  · exact inv.ring
  · have order := inv.order
    rw [pending] at order
    rw [calm]
    exact order
  · intro stopped
    have flag : s.q.shutdown = true := stopped
    rw [open'] at flag
    cases flag
  · intro _
    exact ⟨turned, calm⟩
  · exact inv.drained
  · exact kept
  · exact inv.hands
  · exact inv.comes
  · exact inv.awake

theorem Inv.accepts (idle : s.acceptor = .idle) (fast : Bool) :
    ∀ s', (if fast then
        some { s with accepted := s.accepted + 1, answered := s.answered ++ [s.accepted] }
      else some { s with accepted := s.accepted + 1, acceptor := .pushing s.accepted 0 }) =
        some s' → Inv n s' := by
  intro s' fired
  have open' := inv.open_loop (by rw [idle]; intro pending same; cases same)
  have kept := inv.kept
  rw [idle] at kept
  rw [List.perm_iff_count] at kept
  cases fast with
  | true =>
      rw [if_pos rfl, Option.some.injEq] at fired
      rw [← fired]
      have calm : s.acceptor.pending = [] := by
        rw [idle]
        rfl
      apply inv.takes open' calm
      rw [List.perm_iff_count]
      intro a
      have count := kept a
      rw [idle]
      simp only [List.range_succ, List.count_append, Acceptor.hand, List.count_nil] at count ⊢
      omega
  | false =>
      rw [if_neg Bool.false_ne_true, Option.some.injEq] at fired
      rw [← fired]
      apply inv.takes open' (by rfl)
      rw [List.perm_iff_count]
      intro a
      have count := kept a
      simp only [List.range_succ, List.count_append, Acceptor.hand, List.count_nil] at count ⊢
      omega

/-- The signal wakes a sleeper, if one sleeps; nobody else changes its seat. -/
theorem Inv.signalled {who : Nat} {workers : Nat → Seat}
    (fired : signals n s who = some workers) :
    s.popped.Perm (s.served ++ (List.range n).filterMap fun i => (workers i).hand) ∧
      ∀ i < n, workers i = .asleep → s.q.count + 1 ≤ count Seat.coming n workers := by
  unfold signals at fired
  by_cases sleeper : who < n ∧ s.workers who = .asleep
  · rw [if_pos sleeper, Option.some.injEq] at fired
    rw [← fired]
    obtain ⟨inside, asleep⟩ := sleeper
    constructor
    · have changed := hands_update n s.workers inside .woken
      rw [asleep] at changed
      simp only [Seat.hand, Option.toList_none, List.append_nil] at changed
      exact inv.hands.trans (List.Perm.append_left _ changed.symm)
    · intro i below sleeps
      have changed := count_update Seat.coming inside s.workers .woken
      have before := inv.comes who inside asleep
      rw [asleep] at changed
      simp only [Seat.coming, Bool.false_eq_true, if_false, if_true] at changed
      omega
  · rw [if_neg sleeper] at fired
    by_cases none' : ((List.range n).all fun i => s.workers i ≠ .asleep) = true
    · rw [if_pos none', Option.some.injEq] at fired
      rw [← fired]
      refine ⟨inv.hands, ?_⟩
      intro i below sleeps
      rw [List.all_eq_true] at none'
      have awake := none' i (List.mem_range.mpr below)
      simp only [decide_eq_true_eq] at awake
      exact absurd sleeps awake
    · rw [if_neg none'] at fired
      cases fired

theorem Inv.looks {who : Nat} {s' : State} (fired : look n s who = some s') : Inv n s' := by
  unfold look at fired
  cases at' : s.acceptor with
  | pushing fd looks =>
      simp only [at'] at fired
      have open' := inv.open_loop (by rw [at']; intro pending same; cases same)
      have kept := inv.kept
      rw [at', List.perm_iff_count] at kept
      by_cases room : s.q.count < s.q.limit
      · rw [if_pos room] at fired
        cases woken : signals n s who with
        | none =>
            rw [woken] at fired
            cases fired
        | some workers =>
            rw [woken, Option.map_some, Option.some.injEq] at fired
            rw [← fired]
            obtain ⟨hands, comes⟩ := inv.signalled woken
            obtain ⟨ring, waiting⟩ := inv.ring.push room fd
            obtain ⟨turned, pending⟩ := inv.running open'
            constructor
            · exact ring
            · have order := inv.order
              rw [turned, pending] at order
              simp only [Acceptor.pending, waiting, turned]
              rw [order]
              simp only [List.append_nil, List.append_assoc]
            · intro stopped
              have flag : s.q.shutdown = true := stopped
              rw [open'] at flag
              cases flag
            · intro _
              exact ⟨turned, rfl⟩
            · intro stopped
              have flag : s.q.shutdown = true := stopped
              rw [open'] at flag
              cases flag
            · rw [List.perm_iff_count]
              intro a
              have count := kept a
              simp only [List.count_append, Acceptor.hand, List.count_nil] at count ⊢
              omega
            · exact hands
            · exact comes
            · intro stopped
              have flag : s.q.shutdown = true := stopped
              rw [open'] at flag
              cases flag
      · rw [if_neg room] at fired
        by_cases more : looks + 1 < looksMax
        · rw [if_pos more, Option.some.injEq] at fired
          rw [← fired]
          apply inv.takes open' (by rfl)
          rw [List.perm_iff_count]
          exact kept
        · rw [if_neg more, Option.some.injEq] at fired
          rw [← fired]
          apply inv.takes open' (by rfl)
          rw [List.perm_iff_count]
          exact kept
  | _ =>
      simp only [at'] at fired
      cases fired

theorem Inv.sheds {fd : Nat} (full : s.acceptor = .full fd) :
    Inv n { s with acceptor := .idle, shed := s.shed ++ [fd] } := by
  have open' := inv.open_loop (by rw [full]; intro pending same; cases same)
  have kept := inv.kept
  rw [full, List.perm_iff_count] at kept
  apply inv.takes open' (by rfl)
  rw [List.perm_iff_count]
  intro a
  have count := kept a
  simp only [List.count_append, Acceptor.hand, List.count_nil] at count ⊢
  omega

theorem Inv.shuts_down {s' : State} (fired : queueShutdown s = some s') : Inv n s' := by
  unfold queueShutdown at fired
  cases at' : s.acceptor with
  | idle =>
      simp only [at', Option.some.injEq] at fired
      rw [← fired]
      have open' := inv.open_loop (by rw [at']; intro pending same; cases same)
      obtain ⟨list, ring, none', limit⟩ := drain_all inv.ring rfl []
      obtain ⟨turned, pending⟩ := inv.running open'
      have empty : Queue.waiting { (Queue.drain s.q.count s.q []).2 with shutdown := true } =
          [] := by
        unfold Queue.waiting
        simp only [none']
        rfl
      constructor
      · exact ⟨ring.head, ring.tail, ring.room, ring.limit⟩
      · have order := inv.order
        rw [turned, pending] at order
        simp only [Acceptor.pending, list, turned, empty]
        rw [order]
        simp only [List.append_nil, List.nil_append]
      · intro _
        exact ⟨_, rfl⟩
      · intro running
        cases running
      · intro _
        exact none'
      · have kept := inv.kept
        rw [at'] at kept
        exact kept
      · have hands := inv.hands
        unfold inHands at hands ⊢
        simp only [roused_hand]
        exact hands
      · intro i _ asleep
        exact absurd asleep (roused_awake _)
      · intro _ i _
        exact roused_awake _
  | _ =>
      simp only [at'] at fired
      cases fired

theorem Inv.turns_away {fd : Nat} {pending : List Nat}
    (stopping : s.acceptor = .stopping (fd :: pending)) :
    Inv n { s with acceptor := .stopping pending, turnedAway := s.turnedAway ++ [fd] } := by
  have stopped : s.q.shutdown = true := by
    cases flag : s.q.shutdown with
    | true => rfl
    | false =>
        have none' := (inv.running flag).2
        rw [stopping] at none'
        cases none'
  constructor
  · exact inv.ring
  · have order := inv.order
    rw [stopping] at order
    simp only [Acceptor.pending] at order ⊢
    rw [order]
    simp only [List.append_assoc, List.singleton_append]
  · intro _
    exact ⟨pending, rfl⟩
  · intro running
    have flag : s.q.shutdown = false := running
    rw [stopped] at flag
    cases flag
  · exact inv.drained
  · have kept := inv.kept
    rw [stopping] at kept
    exact kept
  · exact inv.hands
  · exact inv.comes
  · exact inv.awake

end Acceptor

/-! ## Every run -/

theorem fire_inv (inv : Inv n s) {event : Event} {s' : State}
    (fired : fire n s event = some s') : Inv n s' := by
  cases event with
  | accept fast =>
      simp only [fire] at fired
      cases at' : s.acceptor with
      | idle =>
          simp only [at'] at fired
          have taken := inv.accepts at' fast s'
          simp only [at'] at taken
          exact taken fired
      | _ =>
          simp only [at'] at fired
          cases fired
  | look who => exact inv.looks fired
  | answerFull =>
      simp only [fire] at fired
      cases at' : s.acceptor with
      | full fd =>
          simp only [at', Option.some.injEq] at fired
          rw [← fired]
          exact inv.sheds at'
      | _ =>
          simp only [at'] at fired
          cases fired
  | shutdown => exact inv.shuts_down fired
  | turnAway =>
      simp only [fire] at fired
      cases at' : s.acceptor with
      | stopping pending =>
          cases pending with
          | nil =>
              simp only [at'] at fired
              cases fired
          | cons fd pending =>
              simp only [at', Option.some.injEq] at fired
              rw [← fired]
              exact inv.turns_away at'
      | _ =>
          simp only [at'] at fired
          cases fired
  | worker i =>
      simp only [fire] at fired
      by_cases inside : i < n
      · rw [if_pos inside] at fired
        exact inv.q_pop inside fired
      · rw [if_neg inside] at fired
        cases fired
  | wakes i =>
      simp only [fire] at fired
      by_cases sleeper : i < n ∧ s.workers i = .asleep
      · rw [if_pos sleeper, Option.some.injEq] at fired
        rw [← fired]
        exact inv.wakes sleeper.1 sleeper.2
      · rw [if_neg sleeper] at fired
        cases fired
  | finish i =>
      simp only [fire] at fired
      by_cases inside : i < n
      · rw [if_pos inside] at fired
        cases at' : s.workers i with
        | serving fd =>
            simp only [at', Option.some.injEq] at fired
            rw [← fired]
            exact inv.finishes inside at'
        | _ =>
            simp only [at'] at fired
            cases fired
      · rw [if_neg inside] at fired
        cases fired

theorem run_inv (run : Reachable Started (fire n) s) : Inv n s :=
  run.invariant (fun _ started => started_inv started) fun _ _ _ inv _ fired =>
    fire_inv inv fired

/-- The queue is first in, first out, and never over its limit, and every connection that was
accepted is in one place: answered by the accept loop, shed with a full queue, still in the
hands of the accept loop, waiting, in the hands of a worker, served by one, or turned away at
the shutdown. -/
theorem connections_are_kept (run : Reachable Started (fire n) s) :
    s.q.count ≤ s.q.limit ∧
    s.pushed = s.popped ++ s.turnedAway ++ s.acceptor.pending ++ s.q.waiting ∧
    (List.range s.accepted).Perm (s.answered ++ s.shed ++ s.acceptor.hand ++ s.q.waiting ++
      inHands n s ++ s.served ++ (s.turnedAway ++ s.acceptor.pending)) := by
  have inv := run_inv run
  refine ⟨inv.ring.room, inv.order, ?_⟩
  have kept := inv.kept
  have hands := inv.hands
  rw [List.perm_iff_count] at kept hands ⊢
  intro a
  have all := kept a
  have held := hands a
  rw [inv.order] at all
  simp only [List.count_append] at all held ⊢
  omega

/-- While a worker sleeps, as many others are coming to the queue as connections wait in it;
after the shutdown nobody sleeps. -/
theorem nobody_waits_for_a_sleeper (run : Reachable Started (fire n) s) :
    ∀ i < n, s.workers i = .asleep →
      s.q.shutdown = false ∧ s.q.count ≤ count Seat.coming n s.workers := by
  intro i inside asleep
  have inv := run_inv run
  constructor
  · cases flag : s.q.shutdown with
    | false => rfl
    | true => exact absurd asleep (inv.awake flag i inside)
  · exact inv.comes i inside asleep

/-- A queue of one place. -/
def justStarted : State where
  q := ⟨id, 0, 0, 0, 1, false⟩
  workers _ := .entering
  acceptor := .idle
  accepted := 0
  pushed := []
  popped := []
  answered := []
  shed := []
  turnedAway := []
  served := []

theorem just_started : Started justStarted :=
  ⟨rfl, rfl, rfl, by decide, by decide, rfl, fun _ => rfl, rfl, rfl, rfl, rfl, rfl, rfl, rfl, rfl⟩

/-- One worker takes the first connection, the second waits, the third finds no room, and the
second is turned away at the shutdown. -/
def busyDay : List Event :=
  [.worker 0, .accept false, .look 0, .worker 0, .accept false, .look 0, .accept false] ++
    List.replicate 10 (.look 0) ++ [.answerFull, .shutdown, .turnAway, .finish 0, .worker 0]

theorem busy_day_run : Reachable Started (fire 1) (play (fire 1) justStarted busyDay) :=
  Reaches.plays (.start justStarted just_started) busyDay (fun _ _ _ => trivial) (by decide +kernel)

theorem connections_are_kept_busy_day :
    let s := play (fire 1) justStarted busyDay
    (List.range s.accepted).Perm (s.answered ++ s.shed ++ s.acceptor.hand ++ s.q.waiting ++
      inHands 1 s ++ s.served ++ (s.turnedAway ++ s.acceptor.pending)) :=
  (connections_are_kept busy_day_run).2.2

/-- Two workers lie down, and the push of a connection wakes the first of them. -/
def quietDay : List Event := [.worker 0, .worker 1, .accept false, .look 0]

theorem quiet_day_run : Reachable Started (fire 2) (play (fire 2) justStarted quietDay) :=
  Reaches.plays (.start justStarted just_started) quietDay (fun _ _ _ => trivial)
    (by decide +kernel)

theorem nobody_waits_for_a_sleeper_quiet_day :
    let s := play (fire 2) justStarted quietDay
    s.q.count = 1 ∧ s.workers 1 = .asleep ∧ s.q.shutdown = false ∧
      s.q.count ≤ count Seat.coming 2 s.workers := by
  have asleep : (play (fire 2) justStarted quietDay).workers 1 = .asleep := by decide +kernel
  exact ⟨by decide +kernel, asleep,
    nobody_waits_for_a_sleeper quiet_day_run 1 (by decide) asleep⟩

end GridcoreRunner.Admission
