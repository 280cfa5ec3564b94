import GridcoreRunner.Vram.Device
import Mathlib.Algebra.BigOperators.Group.List.Lemmas
import Mathlib.Algebra.Order.BigOperators.Group.List

/-!
# What a transaction does to the pending entries

A live entry is one whose owner runs. A transaction drops the others. The pending
entries among the live ones are all that the fit arithmetic reads.
-/

namespace GridcoreRunner.Vram

set_option autoImplicit false

/-! ## Lists with one entry of a kind -/

section

variable {α : Type*} {l : List α} {q : α → Bool} {x : α}

theorem perm_of_find (apart : l.Pairwise fun a b => ¬(q a = true ∧ q b = true))
    (found : l.find? q = some x) (change : α → α) :
    l.Perm (x :: l.filter fun a => !q a) ∧
      (l.map fun a => if q a = true then change a else a).Perm
        (change x :: l.filter fun a => !q a) := by
  induction l with
  | nil => simp at found
  | cons a l induction =>
      have later := List.pairwise_cons.mp apart
      by_cases here : q a = true
      · have same : a = x := by simpa [here] using found
        have others : ∀ b ∈ l, q b = false := by
          intro b inside
          have none_ := later.1 b inside
          simpa [here] using none_
        have kept : (a :: l).filter (fun a => !q a) = l := by
          rw [List.filter_cons_of_neg (by simp [here]), List.filter_eq_self.mpr]
          intro b inside
          simp [others b inside]
        have unchanged : (l.map fun a => if q a = true then change a else a) = l := by
          have same : ∀ b ∈ l, (if q b = true then change b else b) = id b := by
            intro b inside
            simp [others b inside]
          rw [List.map_congr_left same, List.map_id]
        rw [kept, List.map_cons, unchanged, if_pos here, same]
        exact ⟨List.Perm.refl _, List.Perm.refl _⟩
      · have found' : l.find? q = some x := by simpa [here] using found
        have rest := induction later.2 found'
        rw [List.filter_cons_of_pos (by simp [here]), List.map_cons, if_neg here]
        constructor
        · exact (List.Perm.cons a rest.1).trans (List.Perm.swap x a _)
        · exact (List.Perm.cons a rest.2).trans (List.Perm.swap (change x) a _)

theorem sum_filter_le (f : α → Nat) (l : List α) (q : α → Bool) :
    ((l.filter q).map f).sum ≤ (l.map f).sum := by
  induction l with
  | nil => simp
  | cons a l induction =>
      by_cases here : q a = true
      · rw [List.filter_cons_of_pos here]
        simp only [List.map_cons, List.sum_cons]
        omega
      · rw [List.filter_cons_of_neg here]
        simp only [List.map_cons, List.sum_cons]
        omega

end

/-! ## Owners -/

/-- What tells leases apart: owner, start, number and size. -/
abbrev Key := Int64 × UInt64 × Int64 × UInt64

def RegEntry.key (e : RegEntry) : Key := (e.pid, e.procstart, e.seq, e.bytes)

def Claim.key (c : Claim) : Key := (c.pid, c.procstart, c.seq, c.need)

namespace Device

variable {d : Device}

def owned (d : Device) (e : RegEntry) : Bool :=
  d.processes.any fun p => p.pid == e.pid && p.start == e.procstart

/-- A process has its id to itself, and its start is known. -/
structure Owners (d : Device) : Prop where
  apart : (d.processes.map Process.pid).Nodup
  known : ∀ p ∈ d.processes, 0 < p.pid ∧ p.start ≠ 0 ∧ (p.pid, p.start) ∈ d.born

/-- The registry spells entries that runners have written. -/
structure Table (d : Device) (entries : List RegEntry) : Prop where
  text : d.registry = serialise entries
  fits : entries.length ≤ regMaxEntries
  fine : ∀ e ∈ entries, e.Fine
  guarded : ∀ e ∈ entries, e.procstart ≠ 0 ∧ (e.pid, e.procstart) ∈ d.born

theorem Owners.same (owners : d.Owners) {p q : Process} (at_p : p ∈ d.processes)
    (at_q : q ∈ d.processes) (pid : p.pid = q.pid) : p = q :=
  List.inj_on_of_nodup_map owners.apart at_p at_q pid

theorem Owners.find (owners : d.Owners) {p : Process} (member : p ∈ d.processes) :
    (d.processes.find? fun q => q.pid == p.pid) = some p := by
  rcases found : d.processes.find? fun q => q.pid == p.pid with _ | q
  · have none_ := List.find?_eq_none.mp found p member
    simp at none_
  · have inside := List.mem_of_find?_eq_some found
    have pid : q.pid = p.pid := by simpa using List.find?_some found
    rw [found, owners.same inside member pid]

/-- With start times known, an entry is kept exactly while its owner runs. -/
theorem kept_eq (owners : d.Owners) (now : UInt64) {e : RegEntry} (guard : e.procstart ≠ 0) :
    kept (d.host now) e = d.owned e := by
  have fresh : stale (d.host now) e = false := by simp [stale, guard]
  rcases found : d.processes.find? fun q => q.pid == e.pid with _ | p
  · have none_ := List.find?_eq_none.mp found
    have dead : (d.processes.any fun q => q.pid == e.pid) = false := by
      rw [List.any_eq_false]
      exact none_
    have disowned : d.owned e = false := by
      rw [owned, List.any_eq_false]
      intro q inside
      have other := none_ q inside
      simp only [Bool.and_eq_true]
      exact fun both => other both.1
    simp only [kept, host, dead, disowned, Bool.false_and]
  · have member := List.mem_of_find?_eq_some found
    have pid : p.pid = e.pid := by simpa using List.find?_some found
    have alive : (d.processes.any fun q => q.pid == e.pid) = true :=
      List.any_eq_true.mpr ⟨p, member, by simpa using pid⟩
    have own : d.owned e = (p.start == e.procstart) := by
      by_cases start : p.start = e.procstart
      · rw [owned]
        simp only [start, beq_self_eq_true]
        exact List.any_eq_true.mpr ⟨p, member, by simp [pid, start]⟩
      · have other : (p.start == e.procstart) = false := by simpa using start
        rw [other, owned, List.any_eq_false]
        intro q inside both
        simp only [Bool.and_eq_true, beq_iff_eq] at both
        rw [owners.same inside member (both.1.trans pid.symm)] at both
        exact start both.2
    rw [own, kept, fresh]
    simp only [host, alive, reused, found, Option.map_some, Option.any_some, Bool.true_and]
    by_cases start : p.start = e.procstart
    · simp [start]
    · have other : (p.start != e.procstart) = true := by simpa using start
      have unguarded : (e.procstart != 0) = true := by simpa using guard
      rw [other, unguarded]
      simpa using start

theorem reap_eq (owners : d.Owners) {entries : List RegEntry} (table : d.Table entries)
    (now : UInt64) : reap (d.host now) (parse d.registry) = entries.filter d.owned := by
  rw [table.text, parse_serialise table.fine table.fits, reap]
  apply List.filter_congr
  intro e inside
  exact kept_eq owners now (table.guarded e inside).1

theorem seen_eq (owners : d.Owners) {entries : List RegEntry} (table : d.Table entries)
    (c : Claim) (now : UInt64) : d.seen c now = c.others (entries.filter d.owned) := by
  rw [seen, reap_eq owners table]

/-! ## Transactions -/

theorem pending_others (c : Claim) (entries : List RegEntry) :
    pendingOf (c.others entries) = pendingOf entries := by
  unfold Claim.others
  split_ifs
  · rw [pendingOf, List.filter_filter]
    apply List.filter_congr
    intro e inside
    cases state : e.state <;> simp [Claim.marks, state]
  · rfl

theorem others_sublist (c : Claim) (entries : List RegEntry) :
    List.Sublist (c.others entries) entries := by
  unfold Claim.others
  split_ifs
  · exact List.filter_sublist
  · exact List.Sublist.refl _

theorem model_field_fine (model : Bytes) :
    (modelField model).length ≤ 255 ∧
      ∀ c ∈ modelField model, c ≠ tab ∧ c ≠ newline ∧ c ≠ 0 := by
  constructor
  · rw [modelField, List.length_map]
    exact List.length_take_le 255 _
  · intro c inside
    rw [modelField, List.mem_map] at inside
    rcases inside with ⟨b, member, scrubbed⟩
    have stays := List.mem_takeWhile_imp (List.mem_of_mem_take member)
    split_ifs at scrubbed with cut
    · rw [← scrubbed]
      decide
    · rw [← scrubbed]
      push Not at cut
      exact ⟨cut.1, cut.2, by simpa using stays⟩

theorem entry_fine {c : Claim} (owner : 0 < c.pid) (now : UInt64) (state : EntryState) :
    (c.entry now state).Fine where
  owner := owner
  short := (model_field_fine c.model).1
  clean := (model_field_fine c.model).2

theorem record_cases (entries : List RegEntry) (e : RegEntry) :
    (entries.length < regMaxEntries ∧ record entries e = entries ++ [e]) ∨
      (regMaxEntries ≤ entries.length ∧ record entries e = entries) := by
  unfold record
  split_ifs with room
  · exact Or.inl ⟨room, rfl⟩
  · exact Or.inr ⟨by omega, rfl⟩

/-- A claim leaves the entries it found, or one more. -/
theorem edit_mem {c : Claim} {now free : UInt64} {entries : List RegEntry} {e : RegEntry}
    (inside : e ∈ c.edit now free entries) :
    e ∈ entries ∨ ∃ state, e = c.entry now state := by
  have recorded : ∀ state, e ∈ record entries (c.entry now state) →
      e ∈ entries ∨ ∃ state, e = c.entry now state := by
    intro state member
    rcases record_cases entries (c.entry now state) with ⟨-, more⟩ | ⟨-, same⟩
    · rw [more, List.mem_append, List.mem_singleton] at member
      rcases member with old | new
      · exact Or.inl old
      · exact Or.inr ⟨state, new⟩
    · rw [same] at member
      exact Or.inl member
  unfold Claim.edit at inside
  split_ifs at inside
  · exact recorded .pending inside
  · exact recorded .waiting inside
  · exact Or.inl inside

theorem edit_length {c : Claim} {now free : UInt64} {entries : List RegEntry}
    (fits : entries.length ≤ regMaxEntries) :
    (c.edit now free entries).length ≤ regMaxEntries := by
  have recorded : ∀ e, (record entries e).length ≤ regMaxEntries := by
    intro e
    rcases record_cases entries e with ⟨room, more⟩ | ⟨-, same⟩
    · rw [more, List.length_append, List.length_singleton]
      omega
    · rw [same]
      exact fits
  unfold Claim.edit
  split_ifs
  · exact recorded _
  · exact recorded _
  · exact fits

theorem claim_table (owners : d.Owners) {entries : List RegEntry} (table : d.Table entries)
    {c : Claim} {p : Process} (owner : p ∈ d.processes) (pid : p.pid = c.pid)
    (start : p.start = c.procstart) (now : UInt64) :
    ({ d with registry := (claimRmw (d.host now) c d.free d.registry).1 } : Device).Table
      (c.edit now d.free (c.others (entries.filter d.owned))) := by
  have known := owners.known p owner
  rw [pid, start] at known
  have found : ∀ e ∈ c.others (entries.filter d.owned), e ∈ entries := fun e inside =>
    List.mem_of_mem_filter ((others_sublist c _).mem inside)
  have written : (claimRmw (d.host now) c d.free d.registry).1 =
      serialise (c.edit now d.free (c.others (entries.filter d.owned))) := by
    rw [claimRmw, reap_eq owners table now]
    rfl
  rw [written]
  constructor
  · rfl
  · apply edit_length
    exact ((others_sublist c _).trans List.filter_sublist).length_le.trans table.fits
  · intro e inside
    rcases edit_mem inside with old | ⟨state, new⟩
    · exact table.fine e (found e old)
    · rw [new]
      exact entry_fine known.1 now state
  · intro e inside
    rcases edit_mem inside with old | ⟨state, new⟩
    · exact table.guarded e (found e old)
    · rw [new]
      exact known.2

theorem edit_table (owners : d.Owners) {entries : List RegEntry} (table : d.Table entries)
    (x : Edit) (now : UInt64) :
    (d.edit x now).Table (x.entries (entries.filter d.owned)) := by
  have found : ∀ e ∈ entries.filter d.owned, e ∈ entries := fun e inside =>
    List.mem_of_mem_filter inside
  have kept : ∀ e ∈ x.entries (entries.filter d.owned),
      ∃ f ∈ entries, e.pid = f.pid ∧ e.procstart = f.procstart ∧ e.model = f.model := by
    intro e inside
    unfold Edit.entries at inside
    split at inside
    · exact ⟨e, found e (List.mem_of_mem_filter inside), rfl, rfl, rfl⟩
    · rcases List.mem_map.mp inside with ⟨f, member, edited⟩
      split_ifs at edited
      · exact ⟨f, found f member, by rw [← edited], by rw [← edited], by rw [← edited]⟩
      · exact ⟨f, found f member, by rw [edited], by rw [edited], by rw [edited]⟩
  have written : editRmw (d.host now) x d.registry =
      serialise (x.entries (entries.filter d.owned)) := by
    rw [editRmw, reap_eq owners table now]
  rw [edit, written]
  constructor
  · rfl
  · have fewer := (List.filter_sublist (p := d.owned) (l := entries)).length_le
    have fits := table.fits
    unfold Edit.entries
    split
    · have again := (List.filter_sublist (p := fun e => !x.mine e)
        (l := entries.filter d.owned)).length_le
      omega
    · rw [List.length_map]
      omega
  · intro e inside
    rcases kept e inside with ⟨f, member, pid, -, model⟩
    have fine := table.fine f member
    constructor
    · rw [pid]
      exact fine.owner
    · rw [model]
      exact fine.short
    · rw [model]
      exact fine.clean
  · intro e inside
    rcases kept e inside with ⟨f, member, pid, start, -⟩
    rw [pid, start]
    exact table.guarded f member

end Device

end GridcoreRunner.Vram
