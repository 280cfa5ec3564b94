import GridcoreRunner.Vram.Accounting

/-!
# Runs of a device

Every event keeps the accounts, as long as a claim that is let in finds room in
the table. At a full table a claim is let in without an entry, and the next claim
does not see it.
-/

namespace GridcoreRunner.Vram

set_option autoImplicit false

open GridcoreRunner.Runs

namespace Device

variable {d : Device}

/-! ## Processes come and go -/

theorem Sound.spawn {entries : List RegEntry} (sound : d.Sound entries) {pid : Int64}
    {start : UInt64} (positive : 0 < pid) (known : start ≠ 0)
    (free_ : ∀ p ∈ d.processes, p.pid ≠ pid) (fresh : (pid, start) ∉ d.born) :
    ({ d with
      processes := { pid, start, nextSeq := 1 } :: d.processes
      born := (pid, start) :: d.born } : Device).Sound entries := by
  have owned : ∀ e ∈ entries,
      ({ d with
        processes := { pid, start, nextSeq := 1 } :: d.processes
        born := (pid, start) :: d.born } : Device).owned e = d.owned e := by
    intro e inside
    have guard := (sound.table.guarded e inside).2
    have other : (pid == e.pid && start == e.procstart) = false := by
      rw [Bool.eq_false_iff]
      intro both
      simp only [Bool.and_eq_true, beq_iff_eq] at both
      rw [← both.1, ← both.2] at guard
      exact fresh guard
    simp only [Device.owned, List.any_cons, other, Bool.false_or]
  constructor
  · constructor
    · rw [List.map_cons, List.nodup_cons]
      refine ⟨?_, sound.owners.apart⟩
      intro taken
      rcases List.mem_map.mp taken with ⟨p, member, same⟩
      exact free_ p member same
    · intro p inside
      rcases List.mem_cons.mp inside with here | there
      · rw [here]
        exact ⟨positive, known, List.mem_cons_self⟩
      · have old := sound.owners.known p there
        exact ⟨old.1, old.2.1, List.mem_cons_of_mem _ old.2.2⟩
  · constructor
    · intro j inside
      rcases sound.jobs.run j inside with ⟨p, runs, own⟩
      exact ⟨p, List.mem_cons_of_mem _ runs, own⟩
    · exact sound.jobs.apart
  · constructor
    · exact sound.table.text
    · exact sound.table.fits
    · exact sound.table.fine
    · intro e inside
      have old := sound.table.guarded e inside
      exact ⟨old.1, List.mem_cons_of_mem _ old.2⟩
  · constructor
    · rw [List.filter_congr owned]
      exact sound.leases.pending
    · exact sound.leases.within
    · exact sound.leases.bounded

theorem Sound.die {entries : List RegEntry} (sound : d.Sound entries) (pid : Int64) :
    ({ d with
      processes := d.processes.filter fun p => p.pid != pid
      jobs := d.jobs.filter fun j => j.claim.pid != pid } : Device).Sound entries := by
  have owned : ∀ e ∈ entries,
      ({ d with
        processes := d.processes.filter fun p => p.pid != pid
        jobs := d.jobs.filter fun j => j.claim.pid != pid } : Device).owned e =
          (e.pid != pid && d.owned e) := by
    intro e _
    rw [Bool.eq_iff_iff]
    simp only [Device.owned, List.any_eq_true, List.mem_filter, Bool.and_eq_true, bne_iff_ne,
      beq_iff_eq]
    constructor
    · rintro ⟨p, ⟨member, lives⟩, same, start⟩
      exact ⟨same ▸ lives, p, member, same, start⟩
    · rintro ⟨lives, p, member, same, start⟩
      exact ⟨p, ⟨member, same ▸ lives⟩, same, start⟩
  have keys := sound.leases.pending.filter fun k => k.1 != pid
  constructor
  · constructor
    · exact (List.filter_sublist.map Process.pid).nodup sound.owners.apart
    · intro p inside
      exact sound.owners.known p (List.mem_of_mem_filter inside)
  · constructor
    · intro j inside
      have lives := List.of_mem_filter inside
      rcases sound.jobs.run j (List.mem_of_mem_filter inside) with ⟨p, runs, own⟩
      exact ⟨p, List.mem_filter.mpr ⟨runs, by rw [own.1]; exact lives⟩, own⟩
    · exact (List.filter_sublist.map Job.id).nodup sound.jobs.apart
  · exact ⟨sound.table.text, sound.table.fits, sound.table.fine, sound.table.guarded⟩
  · constructor
    · rw [List.filter_congr owned]
      rw [List.filter_map, List.filter_map] at keys
      have left : pendingOf (entries.filter fun e => e.pid != pid && d.owned e) =
          (pendingOf (entries.filter d.owned)).filter ((fun k => k.1 != pid) ∘ RegEntry.key) := by
        simp only [pendingOf, List.filter_filter, Function.comp_def, RegEntry.key]
        apply List.filter_congr
        intro e _
        cases e.pid != pid <;> simp
      have right : (d.jobs.filter fun j => j.claim.pid != pid).filter Job.loading =
          (d.jobs.filter Job.loading).filter ((fun k => k.1 != pid) ∘ Job.key) := by
        simp only [List.filter_filter, Function.comp_def, Job.key, Claim.key, Bool.and_comm]
      rw [left, right]
      exact keys
    · intro j inside
      exact sound.leases.within j (List.mem_of_mem_filter inside)
    · exact (sum_filter_le Job.held d.jobs _).trans sound.leases.bounded

/-- A claim takes a number its process has not given out. -/
theorem Sound.ask {entries : List RegEntry} (sound : d.Sound entries) {p : Process}
    (runs : p ∈ d.processes) (numbers : p.nextSeq < 2 ^ 63) {claim : Claim}
    (own : claim.pid = p.pid) (start : claim.procstart = p.start)
    (numbered : claim.seq = Int64.ofNat p.nextSeq) :
    ({ d with
      processes := d.processes.map fun q =>
        if q.pid == p.pid then { q with nextSeq := q.nextSeq + 1 } else q
      jobs := d.jobs ++ [{ claim, stage := .asking }] } : Device).Sound entries := by
  have pids : ∀ q : Process,
      (if q.pid == p.pid then { q with nextSeq := q.nextSeq + 1 } else q).pid = q.pid := by
    intro q
    split_ifs <;> rfl
  have starts : ∀ q : Process,
      (if q.pid == p.pid then { q with nextSeq := q.nextSeq + 1 } else q).start = q.start := by
    intro q
    split_ifs <;> rfl
  have numbers_up : ∀ q : Process, q.nextSeq ≤
      (if q.pid == p.pid then { q with nextSeq := q.nextSeq + 1 } else q).nextSeq := by
    intro q
    split_ifs
    · exact Nat.le_succ _
    · exact Nat.le_refl _
  have seq : claim.seq.toInt = p.nextSeq := by
    rw [numbered, Int64.toInt_ofNat_of_lt numbers]
  have owned : ∀ e ∈ entries,
      ({ d with
        processes := d.processes.map fun q =>
          if q.pid == p.pid then { q with nextSeq := q.nextSeq + 1 } else q
        jobs := d.jobs ++ [{ claim, stage := .asking }] } : Device).owned e = d.owned e := by
    intro e _
    simp only [Device.owned, List.any_map, Function.comp_def, pids, starts]
  constructor
  · constructor
    · have same : (d.processes.map fun q =>
          if q.pid == p.pid then { q with nextSeq := q.nextSeq + 1 } else q).map Process.pid =
            d.processes.map Process.pid := by
        rw [List.map_map]
        apply List.map_congr_left
        intro q _
        exact pids q
      rw [same]
      exact sound.owners.apart
    · intro q inside
      rcases List.mem_map.mp inside with ⟨old, member, changed⟩
      rw [← changed, pids, starts]
      exact sound.owners.known old member
  · constructor
    · intro j inside
      rcases List.mem_append.mp inside with old | new
      · rcases sound.jobs.run j old with ⟨q, lives, pid, began, below⟩
        refine ⟨_, List.mem_map_of_mem lives, ?_⟩
        have up := numbers_up q
        rw [pids, starts]
        exact ⟨pid, began, by omega⟩
      · rw [List.mem_singleton.mp new]
        refine ⟨_, List.mem_map_of_mem runs, ?_⟩
        rw [pids, starts, if_pos (beq_self_eq_true p.pid)]
        exact ⟨own.symm, start.symm, by simp only [seq]; omega⟩
    · rw [List.map_append, List.map_singleton]
      apply sound.jobs.apart.append (List.nodup_singleton _)
      intro k old new
      rw [List.mem_singleton] at new
      rcases List.mem_map.mp old with ⟨j, member, same⟩
      rcases sound.jobs.run j member with ⟨q, lives, pid, began, below⟩
      rw [new] at same
      have claims := Prod.mk.inj same
      have process : q = p := sound.owners.same lives runs (by rw [pid, claims.1, own])
      rw [claims.2, process, seq] at below
      omega
  · exact ⟨sound.table.text, sound.table.fits, sound.table.fine, sound.table.guarded⟩
  · constructor
    · rw [List.filter_congr owned, List.filter_append, List.map_append]
      have none_ : [({ claim, stage := .asking } : Job)].filter Job.loading = [] := rfl
      rw [none_, List.map_nil, List.append_nil]
      exact sound.leases.pending
    · intro j inside loading
      rcases List.mem_append.mp inside with old | new
      · exact sound.leases.within j old loading
      · rw [List.mem_singleton.mp new] at loading
        cases loading
    · have bounded := sound.leases.bounded
      rw [List.map_append, List.sum_append]
      have nothing : ([({ claim, stage := .asking } : Job)].map Job.held).sum = 0 := rfl
      rw [nothing]
      exact bounded

/-! ## Runs -/

theorem unused_sound (unused : d.Unused) : d.Sound [] := by
  rcases unused with ⟨registry, processes, born, jobs⟩
  constructor
  · constructor
    · simp [processes]
    · simp [processes]
  · constructor
    · simp [jobs]
    · simp [jobs]
  · constructor
    · rw [registry]
      rfl
    · exact Nat.zero_le _
    · simp
    · simp
  · constructor
    · simp [jobs, pendingOf]
    · simp [jobs]
    · simp [jobs]

theorem fire_sound {entries : List RegEntry} (sound : d.Sound entries) {event : Event}
    (roomy : d.Roomy event) {next : Device} (fired : d.fire event = some next) :
    ∃ entries, next.Sound entries := by
  cases event with
  | spawn pid start =>
      simp only [fire] at fired
      split_ifs at fired with fresh
      cases fired
      exact ⟨_, sound.spawn fresh.1 fresh.2.1 fresh.2.2.1 fresh.2.2.2⟩
  | die pid =>
      cases fired
      exact ⟨_, sound.die pid⟩
  | ask pid model need priority waiting =>
      simp only [fire] at fired
      split at fired
      · cases fired
      · next p found =>
          split_ifs at fired with numbers
          cases fired
          have runs := List.mem_of_find?_eq_some found
          have own : p.pid = pid := by simpa using List.find?_some found
          subst own
          exact ⟨_, sound.ask runs numbers rfl rfl rfl⟩
  | poll pid seq now =>
      simp only [fire] at fired
      split at fired
      · next claim found =>
          cases fired
          exact sound.poll found now roomy
      · cases fired
  | giveUp pid seq now =>
      simp only [fire] at fired
      split at fired
      · split_ifs at fired
        cases fired
        exact ⟨_, sound.giveUp pid seq now⟩
      · cases fired
  | allocate pid seq amount =>
      simp only [fire] at fired
      split at fired
      · next claim allocated found =>
          split_ifs at fired with fits
          cases fired
          exact ⟨_, sound.restage found rfl (fun _ => fits) (Nat.le_refl _)⟩
      · cases fired
  | free pid seq amount =>
      simp only [fire] at fired
      split at fired
      · next claim allocated found =>
          cases fired
          have within := sound.leases.within _ (job_named found).1 rfl
          exact ⟨_, sound.restage found rfl (fun _ => (Nat.sub_le _ _).trans within)
            (Nat.le_refl _)⟩
      · next claim allocated found =>
          cases fired
          exact ⟨_, sound.restage found rfl (fun loading => by cases loading) (Nat.sub_le _ _)⟩
      · cases fired
  | commit pid seq actual now =>
      simp only [fire] at fired
      split at fired
      · next claim allocated found =>
          cases fired
          exact ⟨_, sound.settle found (some actual) now
            (sound.leases.within _ (job_named found).1 rfl)⟩
      · cases fired
  | release pid seq now =>
      simp only [fire] at fired
      split at fired
      · next claim allocated found =>
          cases fired
          exact ⟨_, sound.settle found none now
            (sound.leases.within _ (job_named found).1 rfl)⟩
      · next claim allocated found =>
          cases fired
          exact ⟨_, sound.settle found none now (Nat.le_refl _)⟩
      · cases fired

theorem let_in_admits {event : Event} {claim : Claim} (letIn : d.letIn event = some claim) :
    ∃ now, claim.admits d.free (d.seen claim now) = true := by
  unfold Device.letIn at letIn
  split at letIn
  · next pid seq now =>
      split at letIn
      · split_ifs at letIn with admitted
        cases letIn
        exact ⟨now, admitted⟩
      · cases letIn
  · cases letIn

/-- While every claim that is let in is recorded, the device is never promised
twice, and what is let in fits beside all loads under way. -/
theorem never_overcommitted (run : Reaches Device.Unused Device.fire Device.Roomy d) :
    d.allocated + d.outstanding ≤ d.capacity.toNat ∧
      ∀ event claim, d.letIn event = some claim → claim.need ≠ 0 →
        claim.need.toNat + d.pendingNeeds ≤ d.free.toNat := by
  have sound : ∃ entries, d.Sound entries := by
    apply run.invariant
    · intro start unused
      exact ⟨[], unused_sound unused⟩
    · intro state next event holds roomy fired
      rcases holds with ⟨entries, sound⟩
      exact fire_sound sound roomy fired
  rcases sound with ⟨entries, sound⟩
  constructor
  · exact sound.usage
  · intro event claim letIn asks
    rcases let_in_admits letIn with ⟨now, admitted⟩
    rcases sound.admission claim now admitted with nothing | fits
    · exact absurd nothing asks
    · exact fits

/-! ## Two loads -/

theorem roomy_of_short (short : (parse d.registry).length < regMaxEntries) (event : Event) :
    d.Roomy event := by
  cases event with
  | poll pid seq now =>
      intro j _ _
      have fewer := ((others_sublist j.claim (reap (d.host now) (parse d.registry))).trans
        List.filter_sublist).length_le
      exact Nat.lt_of_le_of_lt fewer short
  | _ => exact True.intro

def idle : Device := { capacity := 100, registry := [], processes := [], born := [], jobs := [] }

/-- A load has allocated all it asked for, and a claim asks for nothing. -/
def tight : Device :=
  [Event.spawn 1 1, .ask 1 [] 60 0 false, .poll 1 1 0, .allocate 1 1 60, .ask 1 [] 0 0 false].foldl
    (advance fire) idle

theorem tight_run : Reaches Device.Unused Device.fire Device.Roomy tight := by
  have start : Reaches Device.Unused Device.fire Device.Roomy idle :=
    Reaches.start _ ⟨rfl, rfl, rfl, rfl⟩
  have spawned := start.advance (.spawn 1 1) (roomy_of_short (by decide +kernel) _)
    (by decide +kernel)
  have asked := spawned.advance (.ask 1 [] 60 0 false) (roomy_of_short (by decide +kernel) _)
    (by decide +kernel)
  have polled := asked.advance (.poll 1 1 0) (roomy_of_short (by decide +kernel) _)
    (by decide +kernel)
  have loaded := polled.advance (.allocate 1 1 60) (roomy_of_short (by decide +kernel) _)
    (by decide +kernel)
  exact loaded.advance (.ask 1 [] 0 0 false) (roomy_of_short (by decide +kernel) _)
    (by decide +kernel)

theorem tight_within : tight.allocated + tight.outstanding ≤ tight.capacity.toNat ∧
    ∀ event claim, tight.letIn event = some claim → claim.need ≠ 0 →
      claim.need.toNat + tight.pendingNeeds ≤ tight.free.toNat :=
  never_overcommitted tight_run

/-! ## A full table -/

/-- The `n`th load of one process: 256 small ones, then large ones. -/
def crowdClaim (n : Nat) : Claim :=
  { model := [], need := if n < 256 then 1 else 10, priority := 0, waiting := false, pid := 1,
    seq := Int64.ofNat (n + 1), procstart := 1 }

def crowdEntries (n : Nat) : List RegEntry :=
  (List.range (min n 256)).map fun i => (crowdClaim i).entry 0 .pending

def crowdJobs (n : Nat) : List Job :=
  (List.range n).map fun i => { claim := crowdClaim i, stage := .loading 0 }

/-- The device under `n` loads. -/
def crowd (n : Nat) : Device :=
  { capacity := 266, registry := serialise (crowdEntries n),
    processes := [{ pid := 1, start := 1, nextSeq := n + 1 }], born := [(1, 1)],
    jobs := crowdJobs n }

def crowdAsks (n : Nat) : Device :=
  { crowd n with
    processes := [{ pid := 1, start := 1, nextSeq := n + 2 }]
    jobs := crowdJobs n ++ [{ claim := crowdClaim n, stage := .asking }] }

theorem crowd_fine (n : Nat) : ∀ e ∈ crowdEntries n, e.Fine := by
  intro e inside
  rcases List.mem_map.mp inside with ⟨i, -, same⟩
  rw [← same]
  have owner : 0 < (crowdClaim i).pid := by
    show (0 : Int64) < 1
    decide
  exact entry_fine owner 0 .pending

theorem crowd_length (n : Nat) : (crowdEntries n).length = min n 256 := by
  rw [crowdEntries, List.length_map, List.length_range]

theorem crowd_reap (n : Nat) (now : UInt64) :
    reap ((crowdAsks n).host now) (parse (crowdAsks n).registry) = crowdEntries n := by
  have fits : (crowdEntries n).length ≤ regMaxEntries := by
    rw [crowd_length]
    exact Nat.min_le_right n 256
  have read : parse (crowdAsks n).registry = crowdEntries n := parse_serialise (crowd_fine n) fits
  rw [read, reap, List.filter_eq_self]
  intro e inside
  rcases List.mem_map.mp inside with ⟨i, -, same⟩
  rw [← same]
  rfl

theorem crowd_pending (n : Nat) : (sumBytes (pendingOf (crowdEntries n))).toNat = min n 256 := by
  have all : pendingOf (crowdEntries n) = crowdEntries n := by
    rw [pendingOf, List.filter_eq_self]
    intro e inside
    rcases List.mem_map.mp inside with ⟨i, -, same⟩
    rw [← same]
    rfl
  have ones : (crowdEntries n).map (fun e => e.bytes.toNat) = List.replicate (min n 256) 1 := by
    apply List.eq_replicate_iff.mpr
    constructor
    · rw [List.length_map, crowd_length]
    · intro b inside
      rcases List.mem_map.mp inside with ⟨e, member, size⟩
      rcases List.mem_map.mp member with ⟨i, below, same⟩
      rw [List.mem_range] at below
      have small : (crowdClaim i).need = 1 := if_pos (by omega)
      rw [← size, ← same]
      simp only [Claim.entry, small]
      rfl
  rw [all, sum_bytes, ones, List.sum_replicate_nat]
  omega

theorem crowd_free (n : Nat) : (crowdAsks n).free = 266 := by
  have nothing : (crowdAsks n).allocated = 0 := by
    apply List.sum_eq_zero
    intro b inside
    rcases List.mem_map.mp inside with ⟨j, member, same⟩
    rcases List.mem_append.mp member with old | new
    · rcases List.mem_map.mp old with ⟨i, -, here⟩
      rw [← same, ← here]
      rfl
    · rw [← same, List.mem_singleton.mp new]
      rfl
  rw [Device.free, nothing]
  rfl

theorem crowd_admits {n : Nat} (room : n < 258) :
    (crowdClaim n).admits 266 (crowdEntries n) = true := by
  have pending := crowd_pending n
  have below : sumBytes (pendingOf (crowdEntries n)) < 266 := by
    rw [UInt64.lt_iff_toNat_lt, pending]
    show min n 256 < 266
    omega
  have left : (crowdClaim n).need ≤ available 266 (crowdEntries n) := by
    rw [available, if_pos below, UInt64.le_iff_toNat_le,
      UInt64.toNat_sub_of_le _ _ (UInt64.le_of_lt below), pending]
    show (if n < 256 then (1 : UInt64) else 10).toNat ≤ 266 - min n 256
    split_ifs
    · show 1 ≤ 266 - min n 256
      omega
    · show 10 ≤ 266 - min n 256
      omega
  rw [Claim.admits, Bool.and_eq_true]
  exact ⟨decide_eq_true left, rfl⟩

theorem crowd_asks {n : Nat} (room : n < 258) :
    (crowd n).fire (.ask 1 [] (crowdClaim n).need 0 false) = some (crowdAsks n) := by
  have numbers : n + 1 < 2 ^ 63 := by omega
  show (if n + 1 < 2 ^ 63 then _ else none) = _
  rw [if_pos numbers]
  rfl

theorem crowd_job {n : Nat} (room : n < 258) :
    (crowdJobs n).find? (Job.named 1 (Int64.ofNat (n + 1))) = none := by
  rw [List.find?_eq_none]
  intro j inside
  rcases List.mem_map.mp inside with ⟨i, below, same⟩
  rw [List.mem_range] at below
  rw [← same]
  simp only [Job.named, crowdClaim, beq_self_eq_true, Bool.true_and, beq_iff_eq]
  intro equal
  have left := Int64.toInt_ofNat_of_lt (show i + 1 < 2 ^ 63 by omega)
  have right := Int64.toInt_ofNat_of_lt (show n + 1 < 2 ^ 63 by omega)
  rw [equal, right] at left
  omega

theorem crowd_polls {n : Nat} (room : n < 258) :
    (crowdAsks n).fire (.poll 1 (Int64.ofNat (n + 1)) 0) = some (crowd (n + 1)) := by
  have others := crowd_job room
  have found : (crowdAsks n).job 1 (Int64.ofNat (n + 1)) =
      some { claim := crowdClaim n, stage := .asking } := by
    show (crowdJobs n ++ [_]).find? _ = _
    rw [List.find?_append, others]
    simp [Job.named, crowdClaim]
  have seen : (crowdClaim n).others (reap ((crowdAsks n).host 0) (parse (crowdAsks n).registry)) =
      crowdEntries n := by
    rw [crowd_reap]
    rfl
  have recorded : record (crowdEntries n) ((crowdClaim n).entry 0 .pending) =
      crowdEntries (n + 1) := by
    unfold record
    rw [crowd_length, regMaxEntries]
    split_ifs with small
    · have both : min n 256 = n ∧ min (n + 1) 256 = n + 1 := by omega
      simp only [crowdEntries, both.1, both.2, List.range_succ, List.map_append,
        List.map_singleton]
    · have both : min n 256 = 256 ∧ min (n + 1) 256 = 256 := by omega
      simp only [crowdEntries, both.1, both.2]
  have polled : (crowdAsks n).fire (.poll 1 (Int64.ofNat (n + 1)) 0) =
      some ((crowdAsks n).poll (crowdClaim n) 0) := by
    simp only [fire, found]
  have staged : ((crowdJobs n ++ [(⟨crowdClaim n, .asking⟩ : Job)]).map fun j =>
      if j.named 1 (Int64.ofNat (n + 1)) then { j with stage := .loading 0 } else j) =
        crowdJobs (n + 1) := by
    have still : ∀ j ∈ crowdJobs n,
        (if j.named 1 (Int64.ofNat (n + 1)) then { j with stage := .loading 0 } else j) = id j := by
      intro j inside
      rw [if_neg (List.find?_eq_none.mp others j inside)]
      rfl
    rw [List.map_append, List.map_congr_left still, List.map_id]
    simp [crowdJobs, List.range_succ, Job.named, crowdClaim]
  rw [polled, Device.poll, claimRmw, seen, crowd_free, crowd_admits room]
  simp only [if_true, Claim.edit, crowd_admits room, host, recorded]
  show some (Device.mk 266 _ _ _ _) = some (Device.mk 266 _ _ _ _)
  rw [← staged]
  rfl

theorem crowd_reached {n : Nat} (room : n ≤ 258) :
    Reachable Device.Unused Device.fire (crowd n) := by
  induction n with
  | zero =>
      apply Reaches.step { capacity := 266, registry := [], processes := [], born := [], jobs := [] }
        _ (.spawn 1 1) _ True.intro rfl
      exact Reaches.start _ ⟨rfl, rfl, rfl, rfl⟩
  | succ n induction =>
      have asked := Reaches.step _ _ _ (induction (by omega)) True.intro
        (crowd_asks (show n < 258 by omega))
      exact Reaches.step _ _ _ asked True.intro (crowd_polls (by omega))

/-- Behind a full table two loads of ten bytes are let in where ten are free; and
a claim for nothing is let in beside a load that has filled more than half. -/
theorem overcommitted :
    (∃ d : Device, Reachable Device.Unused Device.fire d ∧
      d.capacity.toNat < d.allocated + d.outstanding) ∧
    ∃ (d : Device) (event : Event) (claim : Claim),
      Reachable Device.Unused Device.fire d ∧ d.letIn event = some claim ∧
        d.free.toNat < claim.need.toNat + d.pendingNeeds := by
  constructor
  · refine ⟨crowd 258, crowd_reached (Nat.le_refl _), ?_⟩
    decide +kernel
  · have let_in : (tight.letIn (.poll 1 2 0)).isSome = true := by decide +kernel
    rcases Option.isSome_iff_exists.mp let_in with ⟨claim, asks⟩
    refine ⟨tight, .poll 1 2 0, claim, tight_run.weaken (fun _ _ _ => True.intro), asks, ?_⟩
    have full : tight.free.toNat < tight.pendingNeeds := by decide +kernel
    omega

end Device

end GridcoreRunner.Vram
