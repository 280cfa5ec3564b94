import GridcoreRunner.Vram.Ledger

/-!
# The life of a lease

Calls of `vram_claim` by any number of processes and threads, with their wait loops,
and what becomes of the leases they return. A move is one transaction on the
registry, or a step between two of them. What the driver reports free is different
at every poll, and the clock may say anything. Every transaction goes through: where
`plat_file_rmw` fails the source lets a claim in without an entry and loses an edit, and
that is left out.
-/

namespace GridcoreRunner.Vram

set_option autoImplicit false

open GridcoreRunner.Runs

/-- Where a call stands between two transactions: at the head of the wait loop, behind
a refusal, in front of the allocation of its handle, or returned with a lease. A call
that has returned without one, and one whose lease is released, is gone. -/
inductive Point
  | polling
  | refused
  | admitted
  | leased
deriving DecidableEq

structure Call where
  claim : Claim
  point : Point

namespace Call

def named (pid seq : Int64) (k : Call) : Bool := k.claim.pid == pid && k.claim.seq == seq

def id (k : Call) : Int64 × Int64 := (k.claim.pid, k.claim.seq)

/-- The entry is the call's own. -/
def Owns (k : Call) (e : RegEntry) : Prop :=
  e.pid = k.claim.pid ∧ e.procstart = k.claim.procstart ∧ e.seq = k.claim.seq

/-- In its wait loop a call has a marker at most, and only if it queues. -/
def Covers (k : Call) (e : RegEntry) : Prop :=
  k.Owns e ∧ (k.point = .polling ∨ k.point = .refused →
    e.state = .waiting ∧ k.claim.waiting = true)

end Call

structure Station where
  registry : Bytes
  processes : List Process
  /-- Process ids and start times, of dead processes too. -/
  born : List (Int64 × UInt64)
  calls : List Call

namespace Station

/-- Nobody has used the registry. -/
def Unused (s : Station) : Prop :=
  s.registry = [] ∧ s.processes = [] ∧ s.born = [] ∧ s.calls = []

def host (s : Station) (now : UInt64) : Host where
  alive := fun pid => s.processes.any fun p => p.pid == pid
  startTime := fun pid => (s.processes.find? fun p => p.pid == pid).map Process.start
  now := now

def call (s : Station) (pid seq : Int64) : Option Call := s.calls.find? (Call.named pid seq)

def moveTo (s : Station) (pid seq : Int64) (point : Point) : Station :=
  { s with calls := s.calls.map fun k => if k.named pid seq then { k with point } else k }

def leave (s : Station) (pid seq : Int64) : Station :=
  { s with calls := s.calls.filter fun k => !k.named pid seq }

def poll (s : Station) (c : Claim) (free now : UInt64) : Station :=
  let (registry, verdict) := claimRmw (s.host now) c free s.registry
  { s with registry }.moveTo c.pid c.seq (if verdict.admitted then .admitted else .refused)

def edit (s : Station) (x : Edit) (now : UInt64) : Station :=
  { s with registry := editRmw (s.host now) x s.registry }

/-- The next number of a process is given out. -/
def number (s : Station) (pid : Int64) : Station :=
  { s with processes := s.processes.map fun q =>
      if q.pid == pid then { q with nextSeq := q.nextSeq + 1 } else q }

inductive Move
  | spawn (pid : Int64) (start : UInt64)
  | die (pid : Int64)
  /-- `vram_claim` takes its number. -/
  | ask (pid : Int64) (model : Bytes) (need : UInt64) (priority : Int32) (waiting : Bool)
  /-- A claim on another device takes its number. -/
  | elsewhere (pid : Int64)
  | poll (pid seq : Int64) (free now : UInt64)
  /-- Not cancelled, and the deadline is still to come. -/
  | retry (pid seq : Int64)
  /-- Cancelled, or past the deadline. -/
  | giveUp (pid seq : Int64) (now : UInt64)
  | allocate (pid seq : Int64)
  | allocationFails (pid seq : Int64) (now : UInt64)
  | commit (pid seq : Int64) (actual now : UInt64)
  | release (pid seq : Int64) (now : UInt64)

def fire (s : Station) : Move → Option Station
  | .spawn pid start =>
      if 0 < pid ∧ start ≠ 0 ∧ (∀ p ∈ s.processes, p.pid ≠ pid) ∧ (pid, start) ∉ s.born then
        some { s with
          processes := { pid, start, nextSeq := 1 } :: s.processes
          born := (pid, start) :: s.born }
      else none
  | .die pid =>
      some { s with
        processes := s.processes.filter fun p => p.pid != pid
        calls := s.calls.filter fun k => k.claim.pid != pid }
  | .ask pid model need priority waiting =>
      match s.processes.find? fun p => p.pid == pid with
      | none => none
      | some p =>
          if p.nextSeq < 2 ^ 63 then
            let claim : Claim :=
              { model, need, priority, waiting, pid, seq := Int64.ofNat p.nextSeq,
                procstart := p.start }
            some { s.number pid with calls := s.calls ++ [{ claim, point := .polling }] }
          else none
  | .elsewhere pid => some (s.number pid)
  | .poll pid seq free now =>
      match s.call pid seq with
      | some { claim, point := .polling } => some (s.poll claim free now)
      | _ => none
  | .retry pid seq =>
      match s.call pid seq with
      | some { claim, point := .refused } =>
          -- without `--wait-for-vram` the deadline is the time of the call
          if claim.waiting then some (s.moveTo pid seq .polling) else none
      | _ => none
  | .giveUp pid seq now =>
      match s.call pid seq with
      | some { claim, point := .refused } =>
          if claim.waiting then some ((s.edit { pid, seq, commit := none } now).leave pid seq)
          else some (s.leave pid seq)
      | _ => none
  | .allocate pid seq =>
      match s.call pid seq with
      | some { claim := _, point := .admitted } => some (s.moveTo pid seq .leased)
      | _ => none
  | .allocationFails pid seq now =>
      match s.call pid seq with
      | some { claim := _, point := .admitted } =>
          some ((s.edit { pid, seq, commit := none } now).leave pid seq)
      | _ => none
  | .commit pid seq actual now =>
      match s.call pid seq with
      | some { claim := _, point := .leased } =>
          some (s.edit { pid, seq, commit := some actual } now)
      | _ => none
  | .release pid seq now =>
      match s.call pid seq with
      | some { claim := _, point := .leased } =>
          some ((s.edit { pid, seq, commit := none } now).leave pid seq)
      | _ => none

/-- The call that the move ends: it returns without a lease, or its lease is released. -/
def ends (s : Station) : Move → Option Call
  | .giveUp pid seq _ => s.call pid seq
  | .allocationFails pid seq _ => s.call pid seq
  | .release pid seq _ => s.call pid seq
  | _ => none

/-- The station as its transactions see it. -/
def device (s : Station) : Device :=
  { capacity := 0, registry := s.registry, processes := s.processes, born := s.born, jobs := [] }

variable {s : Station}

/-! ## What holds between transactions -/

structure Orderly (s : Station) (entries : List RegEntry) : Prop where
  owners : s.device.Owners
  table : s.device.Table entries
  run : ∀ k ∈ s.calls, ∃ p ∈ s.processes, p.pid = k.claim.pid ∧ p.start = k.claim.procstart ∧
    k.claim.seq.toInt < p.nextSeq
  apart : (s.calls.map Call.id).Nodup
  single : entries.Pairwise fun a b => ¬(a.pid = b.pid ∧ a.seq = b.seq)
  /-- Every entry of a live process is covered by a call. -/
  called : ∀ e ∈ entries, s.device.owned e = true → ∃ k ∈ s.calls, k.Covers e
  /-- Behind a refusal nothing is left of an earlier process with the same id. -/
  clean : ∀ k ∈ s.calls, k.point = .refused → ∀ e ∈ entries, e.pid = k.claim.pid →
    e.procstart = k.claim.procstart

theorem call_named {pid seq : Int64} {k : Call} (found : s.call pid seq = some k) :
    k ∈ s.calls ∧ k.claim.pid = pid ∧ k.claim.seq = seq := by
  have named := List.find?_some found
  simp only [Call.named, Bool.and_eq_true, beq_iff_eq] at named
  exact ⟨List.mem_of_find?_eq_some found, named⟩

theorem named_iff (pid seq : Int64) (k : Call) :
    k.named pid seq = true ↔ k.claim.pid = pid ∧ k.claim.seq = seq := by
  simp [Call.named]

/-- Two calls do not share a number. -/
theorem Orderly.same {entries : List RegEntry} (orderly : s.Orderly entries) {k l : Call}
    (member : k ∈ s.calls) (other : l ∈ s.calls) (pid : k.claim.pid = l.claim.pid)
    (seq : k.claim.seq = l.claim.seq) : k = l :=
  List.inj_on_of_nodup_map orderly.apart member other (by simp [Call.id, pid, seq])

theorem owned_process {e : RegEntry} (own : s.device.owned e = true) :
    ∃ p ∈ s.processes, p.pid = e.pid ∧ p.start = e.procstart := by
  rcases List.any_eq_true.mp own with ⟨p, member, both⟩
  simp only [Bool.and_eq_true, beq_iff_eq] at both
  exact ⟨p, member, both⟩

/-- An entry of a live process with a call's id is that process's. -/
theorem Orderly.owned_start {entries : List RegEntry} (orderly : s.Orderly entries) {k : Call}
    (member : k ∈ s.calls) {e : RegEntry} (own : s.device.owned e = true)
    (pid : e.pid = k.claim.pid) : e.procstart = k.claim.procstart := by
  rcases orderly.run k member with ⟨p, runs, here, start, _⟩
  rcases owned_process own with ⟨q, lives, there, began⟩
  have one_ : q = p := orderly.owners.same lives runs (by rw [there, pid, here])
  rw [← began, one_, start]

theorem Orderly.owned_of {entries : List RegEntry} (orderly : s.Orderly entries) {k : Call}
    (member : k ∈ s.calls) {e : RegEntry} (owns : k.Owns e) : s.device.owned e = true := by
  rcases orderly.run k member with ⟨p, runs, here, start, _⟩
  exact List.any_eq_true.mpr ⟨p, runs, by simp [here, start, owns.1, owns.2.1]⟩

/-- The registry after a transaction holds entries of live processes only. -/
theorem Orderly.write {entries : List RegEntry} (orderly : s.Orderly entries)
    {registry : Bytes} {calls : List Call} {entries' : List RegEntry}
    (table : ({ s with registry } : Station).device.Table entries')
    (owned : ∀ e ∈ entries', s.device.owned e = true)
    (from_ : ∀ k ∈ calls, ∃ l ∈ s.calls, l.claim = k.claim)
    (apart : (calls.map Call.id).Nodup)
    (single : entries'.Pairwise fun a b => ¬(a.pid = b.pid ∧ a.seq = b.seq))
    (called : ∀ e ∈ entries', ∃ k ∈ calls, k.Covers e) :
    ({ s with registry, calls } : Station).Orderly entries' where
  owners := ⟨orderly.owners.apart, orderly.owners.known⟩
  table := ⟨table.text, table.fits, table.fine, table.guarded⟩
  run := by
    intro k member
    rcases from_ k member with ⟨l, old, same⟩
    rw [← same]
    exact orderly.run l old
  apart := apart
  single := single
  called := fun e inside _ => called e inside
  clean := by
    intro k member _ e inside pid
    rcases from_ k member with ⟨l, old, same⟩
    rw [← same] at pid ⊢
    exact orderly.owned_start old (owned e inside) pid

/-! ## Calls that move on or leave -/

theorem move_to_mem {pid seq : Int64} {point : Point} {k : Call}
    (member : k ∈ (s.moveTo pid seq point).calls) :
    ∃ l ∈ s.calls, l.claim = k.claim ∧
      ((l.named pid seq = true ∧ k.point = point) ∨ (l.named pid seq = false ∧ k = l)) := by
  rcases List.mem_map.mp member with ⟨l, old, moved⟩
  apply Exists.intro l
  apply And.intro old
  by_cases named : l.named pid seq = true
  · rw [if_pos named] at moved
    rw [← moved]
    exact ⟨rfl, Or.inl ⟨named, rfl⟩⟩
  · rw [if_neg named] at moved
    rw [← moved]
    exact ⟨rfl, Or.inr ⟨by simpa using named, rfl⟩⟩

theorem move_to_ids (pid seq : Int64) (point : Point) :
    (s.moveTo pid seq point).calls.map Call.id = s.calls.map Call.id := by
  rw [moveTo, List.map_map]
  apply List.map_congr_left
  intro k _
  simp only [Function.comp_apply]
  split_ifs <;> rfl

/-- A call that another one's move leaves alone. -/
theorem move_to_other {pid seq : Int64} {point : Point} {k : Call} (member : k ∈ s.calls)
    (other : k.named pid seq = false) : k ∈ (s.moveTo pid seq point).calls :=
  List.mem_map.mpr ⟨k, member, by simp [other]⟩

theorem move_to_named {pid seq : Int64} {point : Point} {k : Call} (member : k ∈ s.calls)
    (named : k.named pid seq = true) : { k with point } ∈ (s.moveTo pid seq point).calls :=
  List.mem_map.mpr ⟨k, member, by simp [named]⟩

theorem leave_mem {pid seq : Int64} {k : Call} :
    k ∈ (s.leave pid seq).calls ↔ k ∈ s.calls ∧ k.named pid seq = false := by
  simp [leave]

theorem leave_apart {entries : List RegEntry} (orderly : s.Orderly entries) (pid seq : Int64) :
    ((s.leave pid seq).calls.map Call.id).Nodup :=
  (List.filter_sublist.map Call.id).nodup orderly.apart

/-! ## Polls -/

/-- What a claim finds are entries of live processes. -/
theorem seen_entries {entries : List RegEntry} (orderly : s.Orderly entries) (c : Claim)
    (now : UInt64) : c.others (reap (s.host now) (parse s.registry)) =
      c.others (entries.filter s.device.owned) := by
  have reaped := Device.reap_eq orderly.owners orderly.table now
  exact congrArg c.others reaped

theorem others_mem {c : Claim} {entries : List RegEntry} {e : RegEntry}
    (inside : e ∈ c.others (entries.filter s.device.owned)) :
    e ∈ entries ∧ s.device.owned e = true :=
  List.mem_filter.mp ((Device.others_sublist c _).mem inside)

/-- A claim that is still in its wait loop finds no entry under its own number. -/
theorem others_foreign {entries : List RegEntry} (orderly : s.Orderly entries) {c : Claim}
    (found : s.call c.pid c.seq = some { claim := c, point := .polling }) {e : RegEntry}
    (inside : e ∈ c.others (entries.filter s.device.owned)) : ¬(e.pid = c.pid ∧ e.seq = c.seq) := by
  rintro ⟨pid, seq⟩
  have here := (call_named found).1
  rcases others_mem inside with ⟨member, own⟩
  rcases orderly.called e member own with ⟨k, running, owns, waits⟩
  have same : k = { claim := c, point := .polling } :=
    orderly.same running here (owns.1.symm.trans pid) (owns.2.2.symm.trans seq)
  rw [same] at waits
  have marker := waits (Or.inl rfl)
  -- its own marker is dropped before anything is judged
  have queues : c.waiting = true := marker.2
  have dropped := inside
  rw [Claim.others, if_pos queues] at dropped
  have kept := List.of_mem_filter dropped
  simp [Claim.marks, marker.1, pid, seq] at kept

/-- What a poll adds is the claim if it is let in, and else a marker if it queues. -/
theorem edit_new {c : Claim} {now free : UInt64} {entries : List RegEntry} {e : RegEntry}
    (inside : e ∈ c.edit now free entries) :
    e ∈ entries ∨ (c.admits free entries = true ∧ e = c.entry now .pending) ∨
      (c.admits free entries = false ∧ c.waiting = true ∧ e = c.entry now .waiting) := by
  have recorded : ∀ state, e ∈ record entries (c.entry now state) →
      e ∈ entries ∨ e = c.entry now state := by
    intro state member
    rcases Device.record_cases entries (c.entry now state) with ⟨-, more⟩ | ⟨-, same⟩
    · rw [more, List.mem_append, List.mem_singleton] at member
      exact member
    · rw [same] at member
      exact Or.inl member
  unfold Claim.edit at inside
  split_ifs at inside with admitted waiting
  · rcases recorded .pending inside with old | new
    · exact Or.inl old
    · exact Or.inr (Or.inl ⟨admitted, new⟩)
  · rcases recorded .waiting inside with old | new
    · exact Or.inl old
    · exact Or.inr (Or.inr ⟨by simpa using admitted, waiting, new⟩)
  · exact Or.inl inside

theorem record_single {entries : List RegEntry} {e : RegEntry}
    (single : entries.Pairwise fun a b => ¬(a.pid = b.pid ∧ a.seq = b.seq))
    (foreign : ∀ a ∈ entries, ¬(a.pid = e.pid ∧ a.seq = e.seq)) :
    (record entries e).Pairwise fun a b => ¬(a.pid = b.pid ∧ a.seq = b.seq) := by
  unfold record
  split_ifs
  · rw [List.pairwise_append]
    refine ⟨single, List.pairwise_singleton _ _, ?_⟩
    intro a inside b new
    rw [List.mem_singleton.mp new]
    exact foreign a inside
  · exact single

theorem edit_single {c : Claim} {now free : UInt64} {entries : List RegEntry}
    (single : entries.Pairwise fun a b => ¬(a.pid = b.pid ∧ a.seq = b.seq))
    (foreign : ∀ a ∈ entries, ¬(a.pid = c.pid ∧ a.seq = c.seq)) :
    (c.edit now free entries).Pairwise fun a b => ¬(a.pid = b.pid ∧ a.seq = b.seq) := by
  unfold Claim.edit
  split_ifs
  · exact record_single single foreign
  · exact record_single single foreign
  · exact single

/-- The table behind a poll, whatever the driver reports free. -/
theorem poll_table {entries : List RegEntry} (orderly : s.Orderly entries) {c : Claim}
    {k : Call} (member : k ∈ s.calls) (own : k.claim = c) (free now : UInt64) :
    ({ s with registry := (claimRmw (s.host now) c free s.registry).1 } : Station).device.Table
      (c.edit now free (c.others (entries.filter s.device.owned))) := by
  have written : (claimRmw (s.host now) c free s.registry).1 =
      serialise (c.edit now free (c.others (entries.filter s.device.owned))) := by
    rw [claimRmw, seen_entries orderly c now]
    rfl
  rcases orderly.run k member with ⟨p, runs, pid, start, _⟩
  rw [own] at pid start
  have known := orderly.owners.known p runs
  rw [pid, start] at known
  constructor
  · exact written
  · apply Device.edit_length
    exact ((Device.others_sublist c _).trans List.filter_sublist).length_le.trans orderly.table.fits
  · intro e inside
    rcases Device.edit_mem inside with old | ⟨state, new⟩
    · exact orderly.table.fine e (others_mem old).1
    · rw [new]
      exact Device.entry_fine known.1 now state
  · intro e inside
    rcases Device.edit_mem inside with old | ⟨state, new⟩
    · exact orderly.table.guarded e (others_mem old).1
    · rw [new]
      exact known.2

/-- A step leaves the station orderly, and every entry behind it was there before or is
one of a call that was there. -/
def Keeps (s next : Station) (entries : List RegEntry) : Prop :=
  ∃ later, next.Orderly later ∧ ∀ e ∈ later,
    (∃ f ∈ entries, e.pid = f.pid ∧ e.procstart = f.procstart ∧ e.seq = f.seq) ∨
      ∃ k ∈ s.calls, k.Owns e

theorem Orderly.poll {entries : List RegEntry} (orderly : s.Orderly entries) {c : Claim}
    (found : s.call c.pid c.seq = some { claim := c, point := .polling }) (free now : UInt64) :
    s.Keeps (s.poll c free now) entries := by
  have here := (call_named found).1
  have named : Call.named c.pid c.seq { claim := c, point := .polling } = true := by
    simp [Call.named]
  have mine : ∀ point state, Call.Owns { claim := c, point } (c.entry now state) :=
    fun _ _ => ⟨rfl, rfl, rfl⟩
  have verdict : (claimRmw (s.host now) c free s.registry).2.admitted =
      c.admits free (c.others (entries.filter s.device.owned)) := by
    rw [claimRmw, seen_entries orderly c now]
  refine ⟨c.edit now free (c.others (entries.filter s.device.owned)), ?_, ?_⟩
  · have moved := @move_to_mem s c.pid c.seq
    unfold Station.poll
    dsimp only
    rw [verdict]
    apply orderly.write (poll_table orderly here rfl free now)
    · intro e inside
      rcases edit_new inside with old | ⟨_, new⟩ | ⟨_, _, new⟩
      · exact (others_mem old).2
      · rw [new]
        exact orderly.owned_of here (mine _ _)
      · rw [new]
        exact orderly.owned_of here (mine _ _)
    · intro k member
      rcases moved member with ⟨l, old, same, _⟩
      exact ⟨l, old, same⟩
    · show ((s.moveTo c.pid c.seq _).calls.map Call.id).Nodup
      rw [move_to_ids]
      exact orderly.apart
    · apply edit_single
      · exact orderly.single.sublist ((Device.others_sublist c _).trans List.filter_sublist)
      · intro e inside
        exact others_foreign orderly found inside
    · intro e inside
      rcases edit_new inside with old | ⟨admitted, new⟩ | ⟨refused, queues, new⟩
      · rcases orderly.called e (others_mem old).1 (others_mem old).2 with ⟨k, running, covers⟩
        have foreign := others_foreign orderly found old
        have other : k.named c.pid c.seq = false := by
          rw [Bool.eq_false_iff]
          intro own
          have ids := (named_iff _ _ _).mp own
          exact foreign ⟨covers.1.1.trans ids.1, covers.1.2.2.trans ids.2⟩
        exact ⟨k, move_to_other running other, covers⟩
      · rw [admitted, if_pos rfl, new]
        refine ⟨_, move_to_named here named, mine _ _, ?_⟩
        intro waits
        rcases waits with waits | waits <;> cases waits
      · rw [refused, if_neg Bool.false_ne_true, new]
        exact ⟨_, move_to_named here named, mine _ _, fun _ => ⟨rfl, queues⟩⟩
  · intro e inside
    rcases Device.edit_mem inside with old | ⟨state, new⟩
    · exact Or.inl ⟨e, (others_mem old).1, rfl, rfl, rfl⟩
    · rw [new]
      exact Or.inr ⟨_, here, mine _ state⟩

/-! ## Commits, releases and rollbacks -/

/-- The entries behind a transaction on one lease. -/
theorem edited_mem {x : Edit} {entries : List RegEntry} {e : RegEntry}
    (inside : e ∈ x.entries (entries.filter s.device.owned)) :
    ∃ f ∈ entries, s.device.owned f = true ∧ e.pid = f.pid ∧ e.procstart = f.procstart ∧
      e.seq = f.seq ∧ (x.mine f = false → e = f) ∧ (x.commit = none → x.mine f = false) := by
  unfold Edit.entries at inside
  split at inside
  · have kept := List.mem_filter.mp inside
    have old := List.mem_filter.mp kept.1
    have other : x.mine e = false := by simpa using kept.2
    exact ⟨e, old.1, old.2, rfl, rfl, rfl, fun _ => rfl, fun _ => other⟩
  · next bytes commits =>
      rcases List.mem_map.mp inside with ⟨f, member, edited⟩
      have old := List.mem_filter.mp member
      refine ⟨f, old.1, old.2, ?_⟩
      have commits' : x.commit ≠ none := by simp [commits]
      split_ifs at edited with own
      · rw [← edited]
        exact ⟨rfl, rfl, rfl, fun other => absurd own (by simp [other]),
          fun none_ => absurd none_ commits'⟩
      · rw [← edited]
        exact ⟨rfl, rfl, rfl, fun _ => rfl, fun none_ => absurd none_ commits'⟩

theorem edited_single {x : Edit} {entries : List RegEntry}
    (single : entries.Pairwise fun a b => ¬(a.pid = b.pid ∧ a.seq = b.seq)) :
    (x.entries (entries.filter s.device.owned)).Pairwise
      fun a b => ¬(a.pid = b.pid ∧ a.seq = b.seq) := by
  have live := single.sublist (List.filter_sublist (p := s.device.owned))
  unfold Edit.entries
  split
  · exact live.sublist List.filter_sublist
  · rw [List.pairwise_map]
    apply live.imp
    intro a b apart
    split_ifs <;> exact apart

theorem mine_iff (pid seq : Int64) (commit : Option UInt64) (e : RegEntry) :
    Edit.mine { pid, seq, commit } e = true ↔ e.pid = pid ∧ e.seq = seq := by
  simp [Edit.mine]

/-- What a transaction on one lease leaves was there before. -/
theorem edited_keeps {x : Edit} {entries : List RegEntry} {e : RegEntry}
    (inside : e ∈ x.entries (entries.filter s.device.owned)) :
    ∃ f ∈ entries, e.pid = f.pid ∧ e.procstart = f.procstart ∧ e.seq = f.seq := by
  rcases edited_mem inside with ⟨f, member, _, pid, start, seq, _⟩
  exact ⟨f, member, pid, start, seq⟩

theorem edited_owned {x : Edit} {entries : List RegEntry} {e : RegEntry}
    (inside : e ∈ x.entries (entries.filter s.device.owned)) : s.device.owned e = true := by
  rcases edited_mem inside with ⟨f, _, own, pid, start, _⟩
  unfold Device.owned at own ⊢
  rw [pid, start]
  exact own

/-- A call that ends takes its entry with it. -/
theorem Orderly.remove {entries : List RegEntry} (orderly : s.Orderly entries) (pid seq : Int64)
    (now : UInt64) :
    ∃ later, ((s.edit { pid, seq, commit := none } now).leave pid seq).Orderly later ∧
      (∀ e ∈ later, ∃ f ∈ entries, e.pid = f.pid ∧ e.procstart = f.procstart ∧ e.seq = f.seq) ∧
        ∀ e ∈ later, ¬(e.pid = pid ∧ e.seq = seq) := by
  have gone : ∀ e ∈ (Edit.mk pid seq none).entries (entries.filter s.device.owned),
      e ∈ entries ∧ ¬(e.pid = pid ∧ e.seq = seq) := by
    intro e inside
    rcases edited_mem inside with ⟨f, member, _, _, _, _, same, removed⟩
    have other := removed rfl
    rw [same other]
    apply And.intro member
    intro own
    rw [(mine_iff pid seq none f).mpr own] at other
    cases other
  refine ⟨_, ?_, fun e inside => edited_keeps inside, fun e inside => (gone e inside).2⟩
  apply orderly.write (Device.edit_table orderly.owners orderly.table { pid, seq, commit := none } now)
  · intro e inside
    exact edited_owned inside
  · intro k member
    exact ⟨k, (leave_mem.mp member).1, rfl⟩
  · exact leave_apart orderly pid seq
  · exact edited_single orderly.single
  · intro e inside
    rcases orderly.called e (gone e inside).1 (edited_owned inside) with ⟨k, running, covers⟩
    refine ⟨k, leave_mem.mpr ⟨running, ?_⟩, covers⟩
    rw [Bool.eq_false_iff]
    intro own
    have ids := (named_iff _ _ _).mp own
    exact (gone e inside).2 ⟨covers.1.1.trans ids.1, covers.1.2.2.trans ids.2⟩

theorem Orderly.commit {entries : List RegEntry} (orderly : s.Orderly entries) {k : Call}
    (found : s.call k.claim.pid k.claim.seq = some k) (leased : k.point = .leased)
    (actual now : UInt64) :
    s.Keeps (s.edit { pid := k.claim.pid, seq := k.claim.seq, commit := some actual } now) entries := by
  refine ⟨(Edit.mk k.claim.pid k.claim.seq (some actual)).entries (entries.filter s.device.owned),
    ?_, fun e inside => Or.inl (edited_keeps inside)⟩
  apply orderly.write (Device.edit_table orderly.owners orderly.table _ now)
  · intro e inside
    exact edited_owned inside
  · intro l member
    exact ⟨l, member, rfl⟩
  · exact orderly.apart
  · exact edited_single orderly.single
  · intro e inside
    rcases edited_mem inside with ⟨f, member, own, pid, start, seq, same, _⟩
    rcases orderly.called f member own with ⟨l, running, owns, waits⟩
    refine ⟨l, running, ⟨pid.trans owns.1, start.trans owns.2.1, seq.trans owns.2.2⟩, ?_⟩
    intro waiting
    by_cases mine : Edit.mine { pid := k.claim.pid, seq := k.claim.seq, commit := some actual } f =
        true
    · -- only the lease's own entry is changed, and its call is out of the wait loop
      have ids := (mine_iff _ _ _ f).mp mine
      have one_ : l = k := orderly.same running (call_named found).1 (owns.1.symm.trans ids.1)
        (owns.2.2.symm.trans ids.2)
      rw [one_, leased] at waiting
      rcases waiting with waiting | waiting <;> cases waiting
    · rw [same (by simpa using mine)]
      exact waits waiting

/-! ## Steps without a transaction -/

/-- A claim that does not queue returns without a trace. -/
theorem Orderly.refuse {entries : List RegEntry} (orderly : s.Orderly entries) {k : Call}
    (found : s.call k.claim.pid k.claim.seq = some k) (refused : k.point = .refused)
    (hurries : k.claim.waiting = false) :
    (s.leave k.claim.pid k.claim.seq).Orderly entries ∧
      ∀ e ∈ entries, ¬(e.pid = k.claim.pid ∧ e.seq = k.claim.seq) := by
  have here := (call_named found).1
  have absent : ∀ e ∈ entries, ¬(e.pid = k.claim.pid ∧ e.seq = k.claim.seq) := by
    rintro e inside ⟨pid, seq⟩
    have start := orderly.clean k here refused e inside pid
    have own := orderly.owned_of here ⟨pid, start, seq⟩
    rcases orderly.called e inside own with ⟨l, running, owns, waits⟩
    have one_ : l = k := orderly.same running here (owns.1.symm.trans pid) (owns.2.2.symm.trans seq)
    rw [one_] at waits
    have queues := (waits (Or.inr refused)).2
    rw [hurries] at queues
    cases queues
  refine ⟨?_, absent⟩
  constructor
  · exact ⟨orderly.owners.apart, orderly.owners.known⟩
  · exact ⟨orderly.table.text, orderly.table.fits, orderly.table.fine, orderly.table.guarded⟩
  · intro l member
    exact orderly.run l (leave_mem.mp member).1
  · exact leave_apart orderly _ _
  · exact orderly.single
  · intro e inside own
    rcases orderly.called e inside own with ⟨l, running, covers⟩
    refine ⟨l, leave_mem.mpr ⟨running, ?_⟩, covers⟩
    rw [Bool.eq_false_iff]
    intro named
    have ids := (named_iff _ _ _).mp named
    exact absent e inside ⟨covers.1.1.trans ids.1, covers.1.2.2.trans ids.2⟩
  · intro l member
    exact orderly.clean l (leave_mem.mp member).1

/-- From a refusal back to a poll, or from an admission to a lease. -/
theorem Orderly.advance {entries : List RegEntry} (orderly : s.Orderly entries) {k : Call}
    (found : s.call k.claim.pid k.claim.seq = some k) {point : Point}
    (waits : point = .polling → k.point = .refused) (loops : point ≠ .refused) :
    (s.moveTo k.claim.pid k.claim.seq point).Orderly entries := by
  have here := (call_named found).1
  constructor
  · exact ⟨orderly.owners.apart, orderly.owners.known⟩
  · exact ⟨orderly.table.text, orderly.table.fits, orderly.table.fine, orderly.table.guarded⟩
  · intro l member
    rcases move_to_mem member with ⟨m, old, same, _⟩
    rw [← same]
    exact orderly.run m old
  · rw [move_to_ids]
    exact orderly.apart
  · exact orderly.single
  · intro e inside own
    rcases orderly.called e inside own with ⟨l, running, owns, marker⟩
    by_cases named : l.named k.claim.pid k.claim.seq = true
    · have ids := (named_iff _ _ _).mp named
      have one_ : l = k := orderly.same running here ids.1 ids.2
      refine ⟨_, move_to_named running named, owns, ?_⟩
      rintro (again | again)
      · rw [one_] at marker ⊢
        exact marker (Or.inr (waits again))
      · exact absurd again loops
    · exact ⟨l, move_to_other running (by simpa using named), owns, marker⟩
  · intro l member refused
    rcases move_to_mem member with ⟨m, old, same, ⟨_, moved⟩ | ⟨_, still⟩⟩
    · exact absurd (moved.symm.trans refused) loops
    · rw [still] at refused ⊢
      exact orderly.clean m old refused

/-! ## Processes -/

theorem Orderly.spawn {entries : List RegEntry} (orderly : s.Orderly entries) {pid : Int64}
    {start : UInt64} (positive : 0 < pid) (known : start ≠ 0)
    (free_ : ∀ p ∈ s.processes, p.pid ≠ pid) (fresh : (pid, start) ∉ s.born) :
    ({ s with
      processes := { pid, start, nextSeq := 1 } :: s.processes
      born := (pid, start) :: s.born } : Station).Orderly entries := by
  have owned : ∀ e ∈ entries,
      ({ s with
        processes := { pid, start, nextSeq := 1 } :: s.processes
        born := (pid, start) :: s.born } : Station).device.owned e = s.device.owned e := by
    intro e inside
    have guard := (orderly.table.guarded e inside).2
    have other : (pid == e.pid && start == e.procstart) = false := by
      rw [Bool.eq_false_iff]
      intro both
      simp only [Bool.and_eq_true, beq_iff_eq] at both
      rw [← both.1, ← both.2] at guard
      exact fresh guard
    simp only [Device.owned, device, List.any_cons, other, Bool.false_or]
  constructor
  · constructor
    · simp only [device, List.map_cons, List.nodup_cons]
      refine ⟨?_, orderly.owners.apart⟩
      intro taken
      rcases List.mem_map.mp taken with ⟨p, member, same⟩
      exact free_ p member same
    · intro p inside
      rcases List.mem_cons.mp inside with here | there
      · rw [here]
        exact ⟨positive, known, List.mem_cons_self⟩
      · have old := orderly.owners.known p there
        exact ⟨old.1, old.2.1, List.mem_cons_of_mem _ old.2.2⟩
  · constructor
    · exact orderly.table.text
    · exact orderly.table.fits
    · exact orderly.table.fine
    · intro e inside
      have old := orderly.table.guarded e inside
      exact ⟨old.1, List.mem_cons_of_mem _ old.2⟩
  · intro k inside
    rcases orderly.run k inside with ⟨p, runs, own⟩
    exact ⟨p, List.mem_cons_of_mem _ runs, own⟩
  · exact orderly.apart
  · exact orderly.single
  · intro e inside own
    rw [owned e inside] at own
    exact orderly.called e inside own
  · exact orderly.clean

theorem Orderly.die {entries : List RegEntry} (orderly : s.Orderly entries) (pid : Int64) :
    ({ s with
      processes := s.processes.filter fun p => p.pid != pid
      calls := s.calls.filter fun k => k.claim.pid != pid } : Station).Orderly entries := by
  constructor
  · constructor
    · exact (List.filter_sublist.map Process.pid).nodup orderly.owners.apart
    · intro p inside
      exact orderly.owners.known p (List.mem_of_mem_filter inside)
  · exact ⟨orderly.table.text, orderly.table.fits, orderly.table.fine, orderly.table.guarded⟩
  · intro k inside
    have lives := List.of_mem_filter inside
    rcases orderly.run k (List.mem_of_mem_filter inside) with ⟨p, runs, own⟩
    exact ⟨p, List.mem_filter.mpr ⟨runs, by rw [own.1]; exact lives⟩, own⟩
  · exact (List.filter_sublist.map Call.id).nodup orderly.apart
  · exact orderly.single
  · intro e inside own
    rcases owned_process own with ⟨p, member, here, start⟩
    have old := List.mem_filter.mp member
    have before : s.device.owned e = true :=
      List.any_eq_true.mpr ⟨p, old.1, by simp [here, start]⟩
    rcases orderly.called e inside before with ⟨k, running, covers⟩
    refine ⟨k, List.mem_filter.mpr ⟨running, ?_⟩, covers⟩
    rw [← covers.1.1, ← here]
    exact old.2
  · intro k inside
    exact orderly.clean k (List.mem_of_mem_filter inside)

theorem number_mem {pid : Int64} {q : Process} (member : q ∈ (s.number pid).processes) :
    ∃ p ∈ s.processes, p.pid = q.pid ∧ p.start = q.start ∧ p.nextSeq ≤ q.nextSeq := by
  rcases List.mem_map.mp member with ⟨p, old, changed⟩
  apply Exists.intro p
  apply And.intro old
  rw [← changed]
  split_ifs
  · exact ⟨rfl, rfl, Nat.le_succ _⟩
  · exact ⟨rfl, rfl, Nat.le_refl _⟩

theorem number_old (pid : Int64) {p : Process} (member : p ∈ s.processes) :
    ∃ q ∈ (s.number pid).processes, q.pid = p.pid ∧ q.start = p.start ∧ p.nextSeq ≤ q.nextSeq ∧
      (p.pid = pid → p.nextSeq < q.nextSeq) := by
  refine ⟨_, List.mem_map_of_mem member, ?_⟩
  by_cases own : p.pid = pid
  · rw [if_pos (by simpa using own)]
    exact ⟨rfl, rfl, Nat.le_succ _, fun _ => Nat.lt_succ_self _⟩
  · rw [if_neg (by simpa using own)]
    exact ⟨rfl, rfl, Nat.le_refl _, fun same => absurd same own⟩

theorem number_owned (pid : Int64) (e : RegEntry) :
    (s.number pid).device.owned e = s.device.owned e := by
  have fields : ∀ q : Process,
      (if q.pid == pid then { q with nextSeq := q.nextSeq + 1 } else q).pid = q.pid ∧
        (if q.pid == pid then { q with nextSeq := q.nextSeq + 1 } else q).start = q.start := by
    intro q
    split_ifs <;> exact ⟨rfl, rfl⟩
  simp only [Device.owned, device, number, List.any_map, Function.comp_def, fields]

theorem Orderly.number {entries : List RegEntry} (orderly : s.Orderly entries) (pid : Int64) :
    (s.number pid).Orderly entries := by
  constructor
  · constructor
    · have same : (s.number pid).processes.map Process.pid = s.processes.map Process.pid := by
        rw [Station.number, List.map_map]
        apply List.map_congr_left
        intro q _
        simp only [Function.comp_apply]
        split_ifs <;> rfl
      show ((s.number pid).processes.map Process.pid).Nodup
      rw [same]
      exact orderly.owners.apart
    · intro q inside
      rcases number_mem inside with ⟨p, member, here, start, _⟩
      rw [← here, ← start]
      exact orderly.owners.known p member
  · exact ⟨orderly.table.text, orderly.table.fits, orderly.table.fine, orderly.table.guarded⟩
  · intro k inside
    rcases orderly.run k inside with ⟨p, lives, here, start, below⟩
    rcases number_old pid lives with ⟨q, runs, same, began, up, _⟩
    exact ⟨q, runs, same.trans here, began.trans start, by omega⟩
  · exact orderly.apart
  · exact orderly.single
  · intro e inside own
    rw [number_owned] at own
    exact orderly.called e inside own
  · exact orderly.clean

/-- A new call has a number its process has not given out. -/
theorem Orderly.ask {entries : List RegEntry} (orderly : s.Orderly entries) {p : Process}
    (runs : p ∈ s.processes) (numbers : p.nextSeq < 2 ^ 63) {claim : Claim}
    (own : claim.pid = p.pid) (start : claim.procstart = p.start)
    (numbered : claim.seq = Int64.ofNat p.nextSeq) :
    ({ s.number p.pid with calls := s.calls ++ [{ claim, point := .polling }] } :
      Station).Orderly entries := by
  have counted := orderly.number p.pid
  have seq : claim.seq.toInt = p.nextSeq := by
    rw [numbered, Int64.toInt_ofNat_of_lt numbers]
  constructor
  · exact ⟨counted.owners.apart, counted.owners.known⟩
  · exact ⟨counted.table.text, counted.table.fits, counted.table.fine, counted.table.guarded⟩
  · intro k inside
    rcases List.mem_append.mp inside with old | new
    · exact counted.run k old
    · rw [List.mem_singleton.mp new]
      rcases number_old p.pid runs with ⟨q, lives, same, began, _, more⟩
      have above := more rfl
      exact ⟨q, lives, same.trans own.symm, began.trans start.symm, by simp only [seq]; omega⟩
  · rw [List.map_append, List.map_singleton]
    apply orderly.apart.append (List.nodup_singleton _)
    intro id old new
    rw [List.mem_singleton] at new
    rcases List.mem_map.mp old with ⟨k, member, same⟩
    rcases orderly.run k member with ⟨q, lives, pid, began, below⟩
    rw [new] at same
    have claims := Prod.mk.inj same
    have process : q = p := orderly.owners.same lives runs (by rw [pid, claims.1, own])
    rw [claims.2, process, seq] at below
    omega
  · exact counted.single
  · intro e inside owned
    rcases counted.called e inside owned with ⟨k, running, covers⟩
    exact ⟨k, List.mem_append_left _ running, covers⟩
  · intro k inside refused
    rcases List.mem_append.mp inside with old | new
    · exact counted.clean k old refused
    · rw [List.mem_singleton.mp new] at refused
      cases refused

end Station

end GridcoreRunner.Vram
