import GridcoreRunner.Vram.Ledger

/-!
# Device memory is not promised twice

The pending entries of live owners are the loads under way, one for one, as long
as every claim that is let in is also recorded. Then the free figure less the
pending bytes is memory nobody has been promised.
-/

namespace GridcoreRunner.Vram

set_option autoImplicit false

open GridcoreRunner.Runs

namespace Job

def id (j : Job) : Int64 × Int64 := (j.claim.pid, j.claim.seq)

def key (j : Job) : Key := j.claim.key

/-- What a job has been promised and may still hold. -/
def held (j : Job) : Nat := if j.loading then j.claim.need.toNat else j.allocated

end Job

namespace Device

variable {d : Device}

structure Jobs (d : Device) : Prop where
  run : ∀ j ∈ d.jobs, ∃ p ∈ d.processes, p.pid = j.claim.pid ∧ p.start = j.claim.procstart ∧
    j.claim.seq.toInt < p.nextSeq
  apart : (d.jobs.map Job.id).Nodup

structure Leases (d : Device) (entries : List RegEntry) : Prop where
  pending : ((pendingOf (entries.filter d.owned)).map RegEntry.key).Perm
    ((d.jobs.filter Job.loading).map Job.key)
  within : ∀ j ∈ d.jobs, j.loading = true → j.allocated ≤ j.claim.need.toNat
  bounded : (d.jobs.map Job.held).sum ≤ d.capacity.toNat

structure Sound (d : Device) (entries : List RegEntry) : Prop where
  owners : d.Owners
  jobs : d.Jobs
  table : d.Table entries
  leases : d.Leases entries

/-! ## The jobs -/

theorem job_named {pid seq : Int64} {j : Job} (found : d.job pid seq = some j) :
    j ∈ d.jobs ∧ j.claim.pid = pid ∧ j.claim.seq = seq := by
  have named := List.find?_some found
  simp only [Job.named, Bool.and_eq_true, beq_iff_eq] at named
  exact ⟨List.mem_of_find?_eq_some found, named⟩

theorem Jobs.split (jobs : d.Jobs) {pid seq : Int64} {j : Job} (found : d.job pid seq = some j)
    (stage : Stage) :
    d.jobs.Perm (j :: (d.drop pid seq).jobs) ∧
      (d.setStage pid seq stage).jobs.Perm ({ j with stage } :: (d.drop pid seq).jobs) := by
  have apart : d.jobs.Pairwise fun a b =>
      ¬(a.named pid seq = true ∧ b.named pid seq = true) := by
    apply (List.pairwise_map.mp jobs.apart).imp
    intro a b differ both
    apply differ
    simp only [Job.named, Bool.and_eq_true, beq_iff_eq] at both
    simp only [Job.id, both.1.1, both.1.2, both.2.1, both.2.2]
  exact perm_of_find apart found fun j => { j with stage }

theorem Jobs.setStage (jobs : d.Jobs) (pid seq : Int64) (stage : Stage) :
    (d.setStage pid seq stage).Jobs := by
  constructor
  · intro j inside
    rcases List.mem_map.mp inside with ⟨i, member, changed⟩
    rcases jobs.run i member with ⟨p, runs, own⟩
    refine ⟨p, runs, ?_⟩
    split_ifs at changed
    · rw [← changed]
      exact own
    · rw [← changed]
      exact own
  · have same : (d.setStage pid seq stage).jobs.map Job.id = d.jobs.map Job.id := by
      rw [Device.setStage, List.map_map]
      apply List.map_congr_left
      intro j _
      simp only [Function.comp_apply]
      split_ifs
      · rfl
      · rfl
    rw [same]
    exact jobs.apart

theorem Jobs.drop (jobs : d.Jobs) (pid seq : Int64) : (d.drop pid seq).Jobs where
  run := fun j inside => jobs.run j (List.mem_of_mem_filter inside)
  apart := (List.filter_sublist.map Job.id).nodup jobs.apart

/-! ## Pending entries -/

/-- A transaction on a lease takes it off the pending entries. -/
theorem pending_entries (x : Edit) (entries : List RegEntry) :
    pendingOf (x.entries entries) = (pendingOf entries).filter fun e => !x.mine e := by
  unfold Edit.entries pendingOf
  rcases x.commit with _ | bytes
  · rw [List.filter_filter, List.filter_filter]
    simp only [Bool.and_comm]
  · rw [List.filter_map, List.filter_filter]
    have still : ∀ e : RegEntry, ((fun f : RegEntry => f.state == .pending) ∘ fun f =>
        if x.mine f = true then { f with state := .committed, bytes } else f) e =
          (!x.mine e && e.state == .pending) := by
      intro e
      by_cases mine : x.mine e = true
      · simp [mine]
      · simp [mine]
    have untouched : ∀ e ∈ entries.filter fun e => !x.mine e && e.state == .pending,
        (if x.mine e = true then { e with state := .committed, bytes } else e) = id e := by
      intro e inside
      have kept := List.of_mem_filter inside
      simp only [Bool.and_eq_true, Bool.not_eq_true'] at kept
      simp [kept.1]
    rw [funext still, List.map_congr_left untouched, List.map_id]

theorem edit_owned (x : Edit) (entries : List RegEntry) :
    (x.entries (entries.filter d.owned)).filter d.owned = x.entries (entries.filter d.owned) := by
  rw [List.filter_eq_self]
  intro e inside
  unfold Edit.entries at inside
  split at inside
  · exact List.of_mem_filter (List.mem_of_mem_filter inside)
  · rcases List.mem_map.mp inside with ⟨f, member, edited⟩
    have own := List.of_mem_filter member
    split_ifs at edited
    · rw [← edited]
      exact own
    · rw [← edited]
      exact own

theorem edit_pending (x : Edit) (entries : List RegEntry) :
    (pendingOf ((x.entries (entries.filter d.owned)).filter d.owned)).map RegEntry.key =
      ((pendingOf (entries.filter d.owned)).map RegEntry.key).filter
        fun k => !(k.1 == x.pid && k.2.2.1 == x.seq) := by
  rw [edit_owned, pending_entries, List.filter_map]
  rfl

theorem loading_keys (jobs : List Job) (pid seq : Int64) :
    ((jobs.filter fun j => !j.named pid seq).filter Job.loading).map Job.key =
      ((jobs.filter Job.loading).map Job.key).filter
        fun k => !(k.1 == pid && k.2.2.1 == seq) := by
  rw [List.filter_map, List.filter_filter, List.filter_filter]
  simp only [Bool.and_comm]
  rfl

/-- A claim that is let in where the table has room becomes a pending entry. -/
theorem claim_pending {c : Claim} {p : Process} (owner : p ∈ d.processes) (pid : p.pid = c.pid)
    (start : p.start = c.procstart) (now free : UInt64) (entries : List RegEntry)
    (room : c.admits free (c.others (entries.filter d.owned)) = true →
      (c.others (entries.filter d.owned)).length < regMaxEntries) :
    (pendingOf ((c.edit now free (c.others (entries.filter d.owned))).filter d.owned)).map
        RegEntry.key =
      (pendingOf (entries.filter d.owned)).map RegEntry.key ++
        if c.admits free (c.others (entries.filter d.owned)) = true then [c.key] else [] := by
  have mine : ∀ state, d.owned (c.entry now state) = true := by
    intro state
    exact List.any_eq_true.mpr ⟨p, owner, by simp [Claim.entry, pid, start]⟩
  have live : (c.edit now free (c.others (entries.filter d.owned))).filter d.owned =
      c.edit now free (c.others (entries.filter d.owned)) := by
    rw [List.filter_eq_self]
    intro e inside
    rcases edit_mem inside with old | ⟨state, new⟩
    · exact List.of_mem_filter ((others_sublist c _).mem old)
    · rw [new]
      exact mine state
  have before := pending_others c (entries.filter d.owned)
  rw [live, ← before]
  unfold Claim.edit
  by_cases admitted : c.admits free (c.others (entries.filter d.owned)) = true
  · rw [if_pos admitted, if_pos admitted, record, if_pos (room admitted)]
    simp [pendingOf, Claim.entry, Claim.key, RegEntry.key]
  · rw [if_neg admitted, if_neg admitted, List.append_nil]
    split_ifs
    · rcases record_cases (c.others (entries.filter d.owned)) (c.entry now .waiting) with
        ⟨-, more⟩ | ⟨-, same⟩
      · rw [more]
        simp [pendingOf, Claim.entry]
      · rw [same]
    · rfl

/-! ## Sums -/

theorem sum_bytes (entries : List RegEntry) :
    (sumBytes entries).toNat = (entries.map fun e => e.bytes.toNat).sum % 2 ^ 64 := by
  induction entries with
  | nil => rfl
  | cons e rest induction =>
      have step : sumBytes (e :: rest) = e.bytes + sumBytes rest := rfl
      rw [step, UInt64.toNat_add, induction, List.map_cons, List.sum_cons]
      omega

theorem pending_needs (jobs : List Job) :
    (jobs.map Job.pendingNeed).sum =
      (((jobs.filter Job.loading).map Job.key).map fun k => k.2.2.2.toNat).sum := by
  induction jobs with
  | nil => rfl
  | cons j rest induction =>
      by_cases loading : j.loading = true
      · rw [List.filter_cons_of_pos loading]
        simp only [List.map_cons, List.sum_cons, induction, Job.pendingNeed, if_pos loading]
        rfl
      · rw [List.filter_cons_of_neg loading]
        simp only [List.map_cons, List.sum_cons, induction, Job.pendingNeed, if_neg loading]
        omega

theorem held_le (jobs : List Job) :
    (jobs.map Job.held).sum ≤ (jobs.map Job.pendingNeed).sum + (jobs.map Job.allocated).sum := by
  induction jobs with
  | nil => simp
  | cons j rest induction =>
      simp only [List.map_cons, List.sum_cons]
      have here : j.held ≤ j.pendingNeed + j.allocated := by
        unfold Job.held Job.pendingNeed
        split_ifs
        · omega
        · omega
      omega

theorem pending_needs_le (jobs : List Job) :
    (jobs.map Job.pendingNeed).sum ≤ (jobs.map Job.held).sum := by
  induction jobs with
  | nil => simp
  | cons j rest induction =>
      simp only [List.map_cons, List.sum_cons]
      have here : j.pendingNeed ≤ j.held := by
        unfold Job.held Job.pendingNeed
        split_ifs
        · omega
        · omega
      omega

/-- Allocated and outstanding memory is what is held. -/
theorem held_eq {jobs : List Job}
    (within : ∀ j ∈ jobs, j.loading = true → j.allocated ≤ j.claim.need.toNat) :
    (jobs.map Job.allocated).sum + (jobs.map Job.outstanding).sum = (jobs.map Job.held).sum := by
  induction jobs with
  | nil => rfl
  | cons j rest induction =>
      have later := induction fun i inside => within i (List.mem_cons_of_mem j inside)
      have here : j.allocated + j.outstanding = j.held := by
        have bound := within j List.mem_cons_self
        unfold Job.outstanding Job.held
        split_ifs with loading
        · have inside := bound loading
          omega
        · omega
      simp only [List.map_cons, List.sum_cons]
      omega

theorem Sound.usage {entries : List RegEntry} (sound : d.Sound entries) :
    d.allocated + d.outstanding ≤ d.capacity.toNat := by
  have held := held_eq sound.leases.within
  have bounded := sound.leases.bounded
  unfold Device.allocated Device.outstanding
  omega

theorem free_eq (d : Device) : d.free.toNat = d.capacity.toNat - d.allocated := by
  have below := d.capacity.toNat_lt
  rw [Device.free, UInt64.toNat_ofNat', Nat.mod_eq_of_lt]
  omega

/-- The pending bytes a claim reads are the needs of the loads under way. -/
theorem Sound.pending_bytes {entries : List RegEntry} (sound : d.Sound entries) (c : Claim)
    (now : UInt64) : (sumBytes (pendingOf (d.seen c now))).toNat = d.pendingNeeds := by
  have same := sound.leases.pending.map fun k : Key => k.2.2.2.toNat
  have bytes : ((pendingOf (entries.filter d.owned)).map RegEntry.key).map
      (fun k => k.2.2.2.toNat) =
        (pendingOf (entries.filter d.owned)).map fun e => e.bytes.toNat := by
    rw [List.map_map]
    rfl
  have needs : d.pendingNeeds < 2 ^ 64 := by
    have low := pending_needs_le d.jobs
    have bounded := sound.leases.bounded
    have below := d.capacity.toNat_lt
    unfold Device.pendingNeeds
    omega
  rw [seen_eq sound.owners sound.table, pending_others, sum_bytes, ← bytes, same.sum_eq,
    ← pending_needs]
  exact Nat.mod_eq_of_lt needs

/-- What is let in fits beside every load under way, unless it asks for nothing. -/
theorem Sound.admission {entries : List RegEntry} (sound : d.Sound entries) (c : Claim)
    (now : UInt64) (admitted : c.admits d.free (d.seen c now) = true) :
    c.need = 0 ∨ c.need.toNat + d.pendingNeeds ≤ d.free.toNat := by
  have pending := sound.pending_bytes c now
  have first := (Bool.and_eq_true_iff.mp admitted).1
  have fits := UInt64.le_iff_toNat_le.mp (of_decide_eq_true first)
  unfold available at fits
  by_cases room : sumBytes (pendingOf (d.seen c now)) < d.free
  · rw [if_pos room, UInt64.toNat_sub_of_le _ _ (UInt64.le_of_lt room), pending] at fits
    have below := UInt64.lt_iff_toNat_lt.mp room
    right
    omega
  · rw [if_neg room] at fits
    left
    apply UInt64.toNat_inj.mp
    simpa using fits

theorem Sound.admitted_held {entries : List RegEntry} (sound : d.Sound entries) (c : Claim)
    (now : UInt64) (admitted : c.admits d.free (d.seen c now) = true) :
    c.need.toNat + (d.jobs.map Job.held).sum ≤ d.capacity.toNat := by
  have held := held_le d.jobs
  have bounded := sound.leases.bounded
  have usage := sound.usage
  have free := d.free_eq
  rcases sound.admission c now admitted with nothing | fits
  · rw [nothing]
    simpa using bounded
  · unfold Device.allocated at free usage
    unfold Device.pendingNeeds at fits
    omega

/-! ## Steps that only touch jobs -/

theorem Jobs.keys (jobs : d.Jobs) {pid seq : Int64} {j : Job} (found : d.job pid seq = some j)
    (stage : Stage) :
    ((d.jobs.filter Job.loading).map Job.key).Perm
        ((if j.loading = true then [j.key] else []) ++
          ((d.drop pid seq).jobs.filter Job.loading).map Job.key) ∧
      (((d.setStage pid seq stage).jobs.filter Job.loading).map Job.key).Perm
        ((if ({ j with stage } : Job).loading = true then [j.key] else []) ++
          ((d.drop pid seq).jobs.filter Job.loading).map Job.key) := by
  have split := jobs.split found stage
  have keyed : ∀ i : Job, ∀ rest : List Job,
      ((i :: rest).filter Job.loading).map Job.key =
        (if i.loading = true then [i.key] else []) ++ (rest.filter Job.loading).map Job.key := by
    intro i rest
    by_cases loading : i.loading = true
    · rw [List.filter_cons_of_pos loading, if_pos loading]
      rfl
    · rw [List.filter_cons_of_neg loading, if_neg loading]
      rfl
  constructor
  · have perm := (split.1.filter Job.loading).map Job.key
    rwa [keyed] at perm
  · have perm := (split.2.filter Job.loading).map Job.key
    rwa [keyed] at perm

theorem Leases.bounds {entries : List RegEntry} (leases : d.Leases entries) (jobs : d.Jobs)
    {pid seq : Int64} {j : Job} (found : d.job pid seq = some j) {stage : Stage}
    (within : ({ j with stage } : Job).loading = true →
      ({ j with stage } : Job).allocated ≤ j.claim.need.toNat) :
    (∀ i ∈ (d.setStage pid seq stage).jobs, i.loading = true →
        i.allocated ≤ i.claim.need.toNat) ∧
      ((d.setStage pid seq stage).jobs.map Job.held).sum + j.held =
        (d.jobs.map Job.held).sum + ({ j with stage } : Job).held := by
  have split := jobs.split found stage
  constructor
  · intro i inside loading
    rcases List.mem_cons.mp (split.2.mem_iff.mp inside) with here | there
    · rw [here] at loading ⊢
      exact within loading
    · exact leases.within i (List.mem_of_mem_filter there) loading
  · have before := (split.1.map Job.held).sum_eq
    have after := (split.2.map Job.held).sum_eq
    simp only [List.map_cons, List.sum_cons] at before after
    omega

/-- A stage that keeps the promise, on a registry that is not touched. -/
theorem Sound.restage {entries : List RegEntry} (sound : d.Sound entries) {pid seq : Int64}
    {j : Job} (found : d.job pid seq = some j) {stage : Stage}
    (loads : ({ j with stage } : Job).loading = j.loading)
    (within : ({ j with stage } : Job).loading = true →
      ({ j with stage } : Job).allocated ≤ j.claim.need.toNat)
    (less : ({ j with stage } : Job).held ≤ j.held) :
    (d.setStage pid seq stage).Sound entries := by
  have bounds := sound.leases.bounds sound.jobs found within
  have keys := sound.jobs.keys found stage
  rw [loads] at keys
  constructor
  · exact ⟨sound.owners.apart, sound.owners.known⟩
  · exact sound.jobs.setStage pid seq stage
  · exact ⟨sound.table.text, sound.table.fits, sound.table.fine, sound.table.guarded⟩
  · constructor
    · exact sound.leases.pending.trans (keys.1.trans keys.2.symm)
    · exact bounds.1
    · have bounded := sound.leases.bounded
      have total := bounds.2
      show ((d.setStage pid seq stage).jobs.map Job.held).sum ≤ d.capacity.toNat
      omega

/-! ## Transactions -/

/-- Behind a commit or a release the load is off the table and off the jobs under way. -/
theorem Sound.retired {entries : List RegEntry} (sound : d.Sound entries) (pid seq : Int64)
    (commit : Option UInt64) :
    ((pendingOf (((Edit.mk pid seq commit).entries (entries.filter d.owned)).filter
        d.owned)).map RegEntry.key).Perm
      (((d.drop pid seq).jobs.filter Job.loading).map Job.key) := by
  rw [edit_pending, Device.drop, loading_keys]
  exact sound.leases.pending.filter _

theorem Sound.settle {entries : List RegEntry} (sound : d.Sound entries) {pid seq : Int64}
    {j : Job} (found : d.job pid seq = some j) (commit : Option UInt64) (now : UInt64)
    (less : j.allocated ≤ j.held) :
    ((d.edit { pid, seq, commit } now).setStage pid seq (.settled j.allocated)).Sound
      ((Edit.mk pid seq commit).entries (entries.filter d.owned)) := by
  have table := edit_table sound.owners sound.table { pid, seq, commit } now
  have bounds := @Leases.bounds d entries sound.leases sound.jobs pid seq j found
    (.settled j.allocated) (by intro loading; cases loading)
  have keys := (sound.jobs.keys found (.settled j.allocated)).2
  constructor
  · exact ⟨sound.owners.apart, sound.owners.known⟩
  · have jobs := sound.jobs.setStage pid seq (.settled j.allocated)
    exact ⟨jobs.run, jobs.apart⟩
  · exact ⟨table.text, table.fits, table.fine, table.guarded⟩
  · constructor
    · exact (sound.retired pid seq commit).trans keys.symm
    · exact bounds.1
    · have bounded := sound.leases.bounded
      have total := bounds.2
      have held : ({ j with stage := .settled j.allocated } : Job).held = j.allocated := rfl
      show ((d.setStage pid seq (.settled j.allocated)).jobs.map Job.held).sum ≤ d.capacity.toNat
      omega

theorem Sound.giveUp {entries : List RegEntry} (sound : d.Sound entries) (pid seq : Int64)
    (now : UInt64) :
    ((d.edit { pid, seq, commit := none } now).drop pid seq).Sound
      ((Edit.mk pid seq none).entries (entries.filter d.owned)) := by
  have table := edit_table sound.owners sound.table { pid, seq, commit := none } now
  have jobs := sound.jobs.drop pid seq
  constructor
  · exact ⟨sound.owners.apart, sound.owners.known⟩
  · exact ⟨jobs.run, jobs.apart⟩
  · exact ⟨table.text, table.fits, table.fine, table.guarded⟩
  · constructor
    · exact sound.retired pid seq none
    · intro i inside
      exact sound.leases.within i (List.mem_of_mem_filter inside)
    · exact (sum_filter_le Job.held d.jobs _).trans sound.leases.bounded

theorem Sound.poll {entries : List RegEntry} (sound : d.Sound entries) {pid seq : Int64}
    {claim : Claim} (found : d.job pid seq = some { claim, stage := .asking }) (now : UInt64)
    (roomy : d.Roomy (.poll pid seq now)) : ∃ next, (d.poll claim now).Sound next := by
  rcases job_named found with ⟨member, pid_eq, seq_eq⟩
  subst pid_eq seq_eq
  rcases sound.jobs.run _ member with ⟨p, runs, own, start, -⟩
  have table := claim_table sound.owners sound.table runs own start now
  have pending := claim_pending runs own start now d.free entries (by
    intro admitted
    have room := roomy _ found
    rw [seen_eq sound.owners sound.table] at room
    exact room admitted)
  have judged : (claimRmw (d.host now) claim d.free d.registry).2.admitted =
      claim.admits d.free (claim.others (entries.filter d.owned)) := by
    rw [claimRmw, reap_eq sound.owners sound.table now]
  have seen := seen_eq sound.owners sound.table claim now
  refine ⟨claim.edit now d.free (claim.others (entries.filter d.owned)), ?_⟩
  unfold Device.poll
  simp only [judged]
  by_cases admitted : claim.admits d.free (claim.others (entries.filter d.owned)) = true
  · rw [if_pos admitted]
    rw [if_pos admitted] at pending
    have within : ({ claim, stage := .loading 0 } : Job).loading = true →
        ({ claim, stage := .loading 0 } : Job).allocated ≤ claim.need.toNat := by
      intro _
      exact Nat.zero_le _
    have bounds := sound.leases.bounds sound.jobs found within
    have keys := sound.jobs.keys found (.loading 0)
    have old : ((d.jobs.filter Job.loading).map Job.key).Perm
        (((d.drop claim.pid claim.seq).jobs.filter Job.loading).map Job.key) := keys.1
    have fits := sound.admitted_held claim now (by rw [seen]; exact admitted)
    constructor
    · exact ⟨sound.owners.apart, sound.owners.known⟩
    · have jobs := sound.jobs.setStage claim.pid claim.seq (.loading 0)
      exact ⟨jobs.run, jobs.apart⟩
    · exact ⟨table.text, table.fits, table.fine, table.guarded⟩
    · constructor
      · have promised := (sound.leases.pending.trans old).append_right [claim.key]
        have first := promised.trans List.perm_append_comm
        exact (List.Perm.of_eq pending).trans (first.trans keys.2.symm)
      · exact bounds.1
      · have total : ((d.setStage claim.pid claim.seq (.loading 0)).jobs.map Job.held).sum + 0 =
            (d.jobs.map Job.held).sum + claim.need.toNat := bounds.2
        show ((d.setStage claim.pid claim.seq (.loading 0)).jobs.map Job.held).sum ≤
          d.capacity.toNat
        omega
  · rw [if_neg admitted]
    rw [if_neg admitted, List.append_nil] at pending
    by_cases waits : claim.waiting = true
    · rw [if_pos waits]
      constructor
      · exact ⟨sound.owners.apart, sound.owners.known⟩
      · exact ⟨sound.jobs.run, sound.jobs.apart⟩
      · exact table
      · constructor
        · exact (List.Perm.of_eq pending).trans sound.leases.pending
        · exact sound.leases.within
        · exact sound.leases.bounded
    · rw [if_neg waits]
      have jobs := sound.jobs.drop claim.pid claim.seq
      have old : ((d.jobs.filter Job.loading).map Job.key).Perm
          (((d.drop claim.pid claim.seq).jobs.filter Job.loading).map Job.key) :=
        (sound.jobs.keys found .asking).1
      constructor
      · exact ⟨sound.owners.apart, sound.owners.known⟩
      · exact ⟨jobs.run, jobs.apart⟩
      · exact ⟨table.text, table.fits, table.fine, table.guarded⟩
      · constructor
        · exact (List.Perm.of_eq pending).trans (sound.leases.pending.trans old)
        · intro i inside
          exact sound.leases.within i (List.mem_of_mem_filter inside)
        · exact (sum_filter_le Job.held d.jobs _).trans sound.leases.bounded

end Device

end GridcoreRunner.Vram
