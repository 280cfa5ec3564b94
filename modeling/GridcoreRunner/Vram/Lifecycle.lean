import GridcoreRunner.Vram.Station

/-!
# What holds over every run of claims

A number has one entry at most; a call that returns without a lease, and a lease that
is released, leave none, then and ever after; a marker changes nothing that a
claimant is told.
-/

namespace GridcoreRunner.Vram

set_option autoImplicit false

open GridcoreRunner.Runs

namespace Station

variable {s : Station}

/-! ## Steps -/

/-- What a move can do, and the call it ends. -/
inductive Turn (s : Station) : Option Call → Station → Prop
  | spawn (pid : Int64) (start : UInt64) (positive : 0 < pid) (known : start ≠ 0)
      (alone : ∀ p ∈ s.processes, p.pid ≠ pid) (fresh : (pid, start) ∉ s.born) :
      Turn s none { s with
        processes := { pid, start, nextSeq := 1 } :: s.processes
        born := (pid, start) :: s.born }
  | die (pid : Int64) :
      Turn s none { s with
        processes := s.processes.filter fun p => p.pid != pid
        calls := s.calls.filter fun k => k.claim.pid != pid }
  | ask (p : Process) (runs : p ∈ s.processes) (numbers : p.nextSeq < 2 ^ 63) (claim : Claim)
      (own : claim.pid = p.pid) (start : claim.procstart = p.start)
      (numbered : claim.seq = Int64.ofNat p.nextSeq) :
      Turn s none { s.number p.pid with calls := s.calls ++ [{ claim, point := .polling }] }
  | elsewhere (pid : Int64) : Turn s none (s.number pid)
  | poll (c : Claim) (found : s.call c.pid c.seq = some { claim := c, point := .polling })
      (free now : UInt64) : Turn s none (s.poll c free now)
  | advance (k : Call) (found : s.call k.claim.pid k.claim.seq = some k) (point : Point)
      (waits : point = .polling → k.point = .refused) (loops : point ≠ .refused) :
      Turn s none (s.moveTo k.claim.pid k.claim.seq point)
  | commit (k : Call) (found : s.call k.claim.pid k.claim.seq = some k)
      (leased : k.point = .leased) (actual now : UInt64) :
      Turn s none
        (s.edit { pid := k.claim.pid, seq := k.claim.seq, commit := some actual } now)
  | refuse (k : Call) (found : s.call k.claim.pid k.claim.seq = some k)
      (refused : k.point = .refused) (hurries : k.claim.waiting = false) :
      Turn s (some k) (s.leave k.claim.pid k.claim.seq)
  | remove (k : Call) (found : s.call k.claim.pid k.claim.seq = some k) (now : UInt64) :
      Turn s (some k)
        ((s.edit { pid := k.claim.pid, seq := k.claim.seq, commit := none } now).leave
          k.claim.pid k.claim.seq)

theorem fire_turn {move : Move} {next : Station} (fired : s.fire move = some next) :
    s.Turn (s.ends move) next := by
  cases move with
  | spawn pid start =>
      simp only [fire] at fired
      split_ifs at fired with fresh
      cases fired
      exact .spawn pid start fresh.1 fresh.2.1 fresh.2.2.1 fresh.2.2.2
  | die pid =>
      cases fired
      exact .die pid
  | ask pid model need priority waiting =>
      simp only [fire] at fired
      split at fired
      · cases fired
      · next p found =>
          split_ifs at fired with numbers
          cases fired
          have runs := List.mem_of_find?_eq_some found
          have own : p.pid = pid := by simpa using List.find?_some found
          subst own
          exact .ask p runs numbers _ rfl rfl rfl
  | elsewhere pid =>
      cases fired
      exact .elsewhere pid
  | poll pid seq free now =>
      simp only [fire] at fired
      split at fired
      · next claim found =>
          cases fired
          rcases call_named found with ⟨_, rfl, rfl⟩
          exact .poll claim found free now
      · cases fired
  | retry pid seq =>
      simp only [fire] at fired
      split at fired
      · next claim found =>
          split_ifs at fired
          cases fired
          rcases call_named found with ⟨_, rfl, rfl⟩
          exact .advance _ found .polling (fun _ => rfl) (by decide)
      · cases fired
  | giveUp pid seq now =>
      simp only [fire] at fired
      split at fired
      · next claim found =>
          rcases call_named found with ⟨_, rfl, rfl⟩
          simp only [ends, found]
          split_ifs at fired with queues
          · cases fired
            exact .remove _ found now
          · cases fired
            exact .refuse _ found rfl (by simpa using queues)
      · cases fired
  | allocate pid seq =>
      simp only [fire] at fired
      split at fired
      · next claim found =>
          cases fired
          rcases call_named found with ⟨_, rfl, rfl⟩
          exact .advance _ found .leased (fun other => by cases other) (by decide)
      · cases fired
  | allocationFails pid seq now =>
      simp only [fire] at fired
      split at fired
      · next claim found =>
          cases fired
          rcases call_named found with ⟨_, rfl, rfl⟩
          simp only [ends, found]
          exact .remove _ found now
      · cases fired
  | commit pid seq actual now =>
      simp only [fire] at fired
      split at fired
      · next claim found =>
          cases fired
          rcases call_named found with ⟨_, rfl, rfl⟩
          exact .commit _ found rfl actual now
      · cases fired
  | release pid seq now =>
      simp only [fire] at fired
      split at fired
      · next claim found =>
          cases fired
          rcases call_named found with ⟨_, rfl, rfl⟩
          simp only [ends, found]
          exact .remove _ found now
      · cases fired

/-- Entries that are all old ones. -/
theorem keeps_old {next : Station} {entries : List RegEntry} (orderly : next.Orderly entries) :
    s.Keeps next entries :=
  ⟨entries, orderly, fun e inside => Or.inl ⟨e, inside, rfl, rfl, rfl⟩⟩

theorem turn_keeps {entries : List RegEntry} (orderly : s.Orderly entries) {ended : Option Call}
    {next : Station} (turn : s.Turn ended next) : s.Keeps next entries := by
  cases turn with
  | spawn pid start positive known alone fresh =>
      exact keeps_old (orderly.spawn positive known alone fresh)
  | die pid => exact keeps_old (orderly.die pid)
  | ask p runs numbers claim own start numbered =>
      exact keeps_old (orderly.ask runs numbers own start numbered)
  | elsewhere pid => exact keeps_old (orderly.number pid)
  | poll c found free now => exact orderly.poll found free now
  | advance k found point waits loops => exact keeps_old (orderly.advance found waits loops)
  | commit k found leased actual now => exact orderly.commit found leased actual now
  | refuse k found refused hurries => exact keeps_old (orderly.refuse found refused hurries).1
  | remove k found now =>
      rcases orderly.remove k.claim.pid k.claim.seq now with ⟨later, sound, old, _⟩
      exact ⟨later, sound, fun e inside => Or.inl (old e inside)⟩

/-- Who runs and who calls behind a move. -/
structure Grows (s next : Station) : Prop where
  born : ∀ b ∈ s.born, b ∈ next.born
  processes : ∀ q ∈ next.processes, (q.pid, q.start) ∉ s.born ∨
    ∃ p ∈ s.processes, p.pid = q.pid ∧ p.start = q.start ∧ p.nextSeq ≤ q.nextSeq
  calls : ∀ k ∈ next.calls, (∃ l ∈ s.calls, l.claim = k.claim) ∨
    ∃ p ∈ s.processes, p.pid = k.claim.pid ∧ p.start = k.claim.procstart ∧
      k.claim.seq.toInt = p.nextSeq

/-- Processes stay and calls come from calls. -/
theorem grows_calls {next : Station} (born : next.born = s.born)
    (processes : next.processes = s.processes)
    (calls : ∀ k ∈ next.calls, ∃ l ∈ s.calls, l.claim = k.claim) : s.Grows next where
  born := fun _ inside => born ▸ inside
  processes := fun q inside => Or.inr ⟨q, processes ▸ inside, rfl, rfl, Nat.le_refl _⟩
  calls := fun k inside => Or.inl (calls k inside)

theorem grows_number (pid : Int64) : s.Grows (s.number pid) where
  born := fun _ inside => inside
  processes := fun _ inside => Or.inr (number_mem inside)
  calls := fun k inside => Or.inl ⟨k, inside, rfl⟩

theorem turn_grows {ended : Option Call} {next : Station} (turn : s.Turn ended next) :
    s.Grows next := by
  have moved : ∀ (pid seq : Int64) (point : Point), ∀ k ∈ (s.moveTo pid seq point).calls,
      ∃ l ∈ s.calls, l.claim = k.claim := by
    intro pid seq point k inside
    rcases move_to_mem inside with ⟨l, old, same, _⟩
    exact ⟨l, old, same⟩
  cases turn with
  | spawn pid start positive known alone fresh =>
      constructor
      · exact fun b inside => List.mem_cons_of_mem _ inside
      · intro q inside
        rcases List.mem_cons.mp inside with new | old
        · rw [new]
          exact Or.inl fresh
        · exact Or.inr ⟨q, old, rfl, rfl, Nat.le_refl _⟩
      · exact fun k inside => Or.inl ⟨k, inside, rfl⟩
  | die pid =>
      constructor
      · exact fun _ inside => inside
      · exact fun q inside => Or.inr ⟨q, List.mem_of_mem_filter inside, rfl, rfl, Nat.le_refl _⟩
      · exact fun k inside => Or.inl ⟨k, List.mem_of_mem_filter inside, rfl⟩
  | ask p runs numbers claim own start numbered =>
      have counted := grows_number (s := s) p.pid
      constructor
      · exact counted.born
      · exact counted.processes
      · intro k inside
        rcases List.mem_append.mp inside with old | new
        · exact counted.calls k old
        · rw [List.mem_singleton.mp new]
          right
          refine ⟨p, runs, own.symm, start.symm, ?_⟩
          rw [numbered, Int64.toInt_ofNat_of_lt numbers]
  | elsewhere pid => exact grows_number pid
  | poll c found free now => exact grows_calls rfl rfl (moved c.pid c.seq _)
  | advance k found point waits loops => exact grows_calls rfl rfl (moved _ _ point)
  | commit k found leased actual now => exact grows_calls rfl rfl fun l inside => ⟨l, inside, rfl⟩
  | refuse k found refused hurries =>
      exact grows_calls rfl rfl fun l inside => ⟨l, (leave_mem.mp inside).1, rfl⟩
  | remove k found now =>
      exact grows_calls rfl rfl fun l inside => ⟨l, (leave_mem.mp inside).1, rfl⟩

/-! ## Leases that are over -/

/-- Nothing is left of the call, and its number is not given out again. -/
structure Gone (k : Call) (s : Station) (entries : List RegEntry) : Prop where
  lived : (k.claim.pid, k.claim.procstart) ∈ s.born
  passed : ∀ p ∈ s.processes, p.pid = k.claim.pid → p.start = k.claim.procstart →
    k.claim.seq.toInt < p.nextSeq
  silent : ∀ l ∈ s.calls, ¬(l.claim.pid = k.claim.pid ∧ l.claim.procstart = k.claim.procstart ∧
    l.claim.seq = k.claim.seq)
  absent : ∀ e ∈ entries, ¬k.Owns e

theorem gone_later {k : Call} {entries later : List RegEntry} (gone : Gone k s entries)
    {next : Station} (grows : s.Grows next)
    (from_ : ∀ e ∈ later,
      (∃ f ∈ entries, e.pid = f.pid ∧ e.procstart = f.procstart ∧ e.seq = f.seq) ∨
        ∃ k ∈ s.calls, k.Owns e) : Gone k next later where
  lived := grows.born _ gone.lived
  passed := by
    intro q inside pid start
    rcases grows.processes q inside with fresh | ⟨p, member, here, began, up⟩
    · rw [pid, start] at fresh
      exact absurd gone.lived fresh
    · have below := gone.passed p member (here.trans pid) (began.trans start)
      omega
  silent := by
    rintro l inside ⟨pid, start, seq⟩
    rcases grows.calls l inside with ⟨m, member, same⟩ | ⟨p, member, here, began, numbered⟩
    · exact gone.silent m member (by rw [same]; exact ⟨pid, start, seq⟩)
    · have below := gone.passed p member (here.trans pid) (began.trans start)
      rw [seq] at numbered
      omega
  absent := by
    intro e inside owns
    rcases from_ e inside with ⟨f, member, pid, start, seq⟩ | ⟨l, member, theirs⟩
    · exact gone.absent f member
        ⟨pid.symm.trans owns.1, start.symm.trans owns.2.1, seq.symm.trans owns.2.2⟩
    · exact gone.silent l member ⟨theirs.1.symm.trans owns.1, theirs.2.1.symm.trans owns.2.1,
        theirs.2.2.symm.trans owns.2.2⟩

/-- A call that ends leaves nothing in the registry under its number. -/
theorem ended_gone {entries : List RegEntry} (orderly : s.Orderly entries) {k : Call}
    {next : Station} (turn : s.Turn (some k) next) :
    ∃ later, next.Orderly later ∧ Gone k next later ∧
      ∀ e ∈ later, ¬(e.pid = k.claim.pid ∧ e.seq = k.claim.seq) := by
  have settled : ∀ later : List RegEntry, k ∈ s.calls → s.Grows next →
      (∀ l ∈ next.calls, l.named k.claim.pid k.claim.seq = false) →
      next.processes = s.processes →
      (∀ e ∈ later, ¬(e.pid = k.claim.pid ∧ e.seq = k.claim.seq)) → Gone k next later := by
    intro later here grows left_ still absent
    rcases orderly.run k here with ⟨p, runs, pid, start, below⟩
    constructor
    · have known := (orderly.owners.known p runs).2.2
      rw [pid, start] at known
      exact grows.born _ known
    · intro q inside same _
      rw [still] at inside
      have one_ : q = p := orderly.owners.same inside runs (same.trans pid.symm)
      rw [one_]
      exact below
    · rintro l inside ⟨same, _, seq⟩
      have other := left_ l inside
      rw [(named_iff _ _ l).mpr ⟨same, seq⟩] at other
      cases other
    · exact fun e inside owns => absent e inside ⟨owns.1, owns.2.2⟩
  have grows := turn_grows turn
  cases turn with
  | refuse _ found refused hurries =>
      have trace := orderly.refuse found refused hurries
      exact ⟨entries, trace.1, settled entries (call_named found).1 grows
        (fun l inside => (leave_mem.mp inside).2) rfl trace.2, trace.2⟩
  | remove _ found now =>
      rcases orderly.remove k.claim.pid k.claim.seq now with ⟨later, sound, _, absent⟩
      exact ⟨later, sound, settled later (call_named found).1 grows
        (fun l inside => (leave_mem.mp inside).2) rfl absent, absent⟩

/-! ## Markers -/

/-- What a claimant is told is available. -/
def told (s : Station) (c : Claim) (free now : UInt64) : UInt64 :=
  (claimRmw (s.host now) c free s.registry).2.status.available

/-- The registry without some of its entries. -/
def without (s : Station) (drop : RegEntry → Bool) : Station :=
  { s with registry := serialise ((parse s.registry).filter fun e => !drop e) }

theorem Orderly.parsed {entries : List RegEntry} (orderly : s.Orderly entries) :
    parse s.registry = entries := by
  have text : s.registry = serialise entries := orderly.table.text
  rw [text, parse_serialise orderly.table.fine orderly.table.fits]

theorem told_eq (c : Claim) (free now : UInt64) :
    s.told c free now = available free (reap (s.host now) (parse s.registry)) := by
  show available free (c.others (reap (s.host now) (parse s.registry))) = _
  unfold available
  rw [Device.pending_others]

/-- Markers are not in the sum that is taken off the free figure. -/
theorem told_without {entries : List RegEntry} (orderly : s.Orderly entries)
    {drop : RegEntry → Bool} (markers : ∀ e, drop e = true → e.state = .waiting) (c : Claim)
    (free now : UInt64) : (s.without drop).told c free now = s.told c free now := by
  have fine : ∀ e ∈ entries.filter (fun e => !drop e), e.Fine :=
    fun e inside => orderly.table.fine e (List.mem_of_mem_filter inside)
  have fits : (entries.filter fun e => !drop e).length ≤ regMaxEntries :=
    (List.length_filter_le _ _).trans orderly.table.fits
  have read : parse (s.without drop).registry = entries.filter fun e => !drop e := by
    rw [without, orderly.parsed, parse_serialise fine fits]
  have same : pendingOf (reap (s.host now) (entries.filter fun e => !drop e)) =
      pendingOf (reap (s.host now) entries) := by
    simp only [pendingOf, reap, List.filter_filter]
    apply List.filter_congr
    intro e _
    by_cases dropped : drop e = true
    · have marker : (e.state == .pending) = false := by rw [markers e dropped]; rfl
      simp [marker]
    · simp [dropped]
  rw [told_eq, told_eq, read, orderly.parsed]
  show available free (reap (s.host now) _) = _
  unfold available
  rw [same]

/-! ## Runs -/

theorem unused_orderly (unused : s.Unused) : s.Orderly [] := by
  rcases unused with ⟨registry, processes, born, calls⟩
  constructor
  · constructor
    · simp [device, processes]
    · simp [device, processes]
  · constructor
    · exact registry
    · exact Nat.zero_le _
    · simp
    · simp
  · simp [calls]
  · simp [calls]
  · exact List.Pairwise.nil
  · simp
  · simp [calls]

theorem reached_orderly (run : Reachable Unused fire s) : ∃ entries, s.Orderly entries := by
  apply run.invariant
  · intro start unused
    exact ⟨[], unused_orderly unused⟩
  · intro state next move holds _ fired
    rcases holds with ⟨entries, orderly⟩
    rcases turn_keeps orderly (fire_turn fired) with ⟨later, sound, _⟩
    exact ⟨later, sound⟩

/-- In every run a number has one entry at most; a call that returns without a lease,
and a lease that is released, leave none, then and ever after; and no marker changes
what a claimant is told is available. -/
theorem lease_lifecycle (run : Reachable Unused fire s) :
    ((parse s.registry).Pairwise fun a b => ¬(a.pid = b.pid ∧ a.seq = b.seq)) ∧
      (∀ move next k, s.fire move = some next → s.ends move = some k →
        (∀ e ∈ parse next.registry, ¬(e.pid = k.claim.pid ∧ e.seq = k.claim.seq)) ∧
          ∀ later, Reachable (fun start => start = next) fire later →
            ∀ e ∈ parse later.registry, ¬k.Owns e) ∧
        ∀ drop : RegEntry → Bool, (∀ e, drop e = true → e.state = .waiting) →
          ∀ c free now, (s.without drop).told c free now = s.told c free now := by
  rcases reached_orderly run with ⟨entries, orderly⟩
  refine ⟨?_, ?_, ?_⟩
  · rw [orderly.parsed]
    exact orderly.single
  · intro move next k fired ended
    have turn := fire_turn fired
    rw [ended] at turn
    rcases ended_gone orderly turn with ⟨found, sound, gone, absent⟩
    constructor
    · rw [sound.parsed]
      exact absent
    · intro later after
      have still : ∃ left_, later.Orderly left_ ∧ Gone k later left_ := by
        apply after.invariant
        · intro start same
          rw [same]
          exact ⟨found, sound, gone⟩
        · intro state following step holds _ stepped
          rcases holds with ⟨left_, tidy, over_⟩
          have turned := fire_turn stepped
          rcases turn_keeps tidy turned with ⟨more, tidied, from_⟩
          exact ⟨more, tidied, gone_later over_ (turn_grows turned) from_⟩
      rcases still with ⟨left_, tidy, over_⟩
      rw [tidy.parsed]
      exact over_.absent
  · intro drop markers c free now
    exact told_without orderly markers c free now

def quiet : Station := { registry := [], processes := [], born := [], calls := [] }

/-- A call that queues has been refused and has left its marker. -/
def queued : Station :=
  [Move.spawn 1 1, .ask 1 [] 60 0 true, .poll 1 1 50 0].foldl (advance fire) quiet

theorem queued_run : Reachable Unused fire queued := by
  have start : Reachable Unused fire quiet := Reaches.start _ ⟨rfl, rfl, rfl, rfl⟩
  have spawned := start.advance (.spawn 1 1) True.intro (by decide +kernel)
  have asked := spawned.advance (.ask 1 [] 60 0 true) True.intro (by decide +kernel)
  exact asked.advance (.poll 1 1 50 0) True.intro (by decide +kernel)

theorem queued_lifecycle :
    ((parse queued.registry).Pairwise fun a b => ¬(a.pid = b.pid ∧ a.seq = b.seq)) ∧
      (∀ move next k, queued.fire move = some next → queued.ends move = some k →
        (∀ e ∈ parse next.registry, ¬(e.pid = k.claim.pid ∧ e.seq = k.claim.seq)) ∧
          ∀ later, Reachable (fun start => start = next) fire later →
            ∀ e ∈ parse later.registry, ¬k.Owns e) ∧
        ∀ drop : RegEntry → Bool, (∀ e, drop e = true → e.state = .waiting) →
          ∀ c free now, (queued.without drop).told c free now = queued.told c free now :=
  lease_lifecycle queued_run

/-- The marker is there, and giving up takes it away. -/
example : (parse queued.registry).map RegEntry.state = [.waiting] ∧
    (queued.fire (.giveUp 1 1 0)).map (fun s => (parse s.registry).length) = some 0 := by
  decide +kernel

end Station

end GridcoreRunner.Vram
