import GridcoreRunner.Server.SchedulerInv

/-!
# What the decode thread keeps

Cutting the microbatch takes every sequence that waits, the decode brings its rows home to
the sequences it was cut from, and publishing wakes exactly those.
-/

namespace GridcoreRunner.Scheduler

open GridcoreRunner.Causal GridcoreRunner.Generation GridcoreRunner.Table GridcoreRunner.Runs

set_option autoImplicit false

variable {V σ κ Row Fold Logits : Type*}
variable {cfg : Config} {s next : State V σ κ Row Fold Logits}

/-- The decode thread moves, and nothing the slots see changes. -/
theorem Inv.unseen (inv : Inv cfg s) (view : next.view = s.view)
    (seq : next.seq = s.seq) (slot : next.slot = s.slot) (nWait : next.nWait = s.nWait) :
    Inv cfg next where
  slots i := by
    rw [view, seq, slot]
    exact inv.slots i
  batch := by
    have same : next.worker.batch = s.worker.batch := congrArg View.batch view
    rw [same]
    exact inv.batch
  inside := by
    have same : next.worker.batch = s.worker.batch := congrArg View.batch view
    rw [same]
    exact inv.inside
  taken := by
    have same : next.worker.batch = s.worker.batch := congrArg View.batch view
    have cuts : next.cuts = s.cuts := congrArg View.cuts view
    rw [same, cuts]
    exact inv.taken
  rows := by
    have rows : next.rows = s.rows := congrArg View.rows view
    have cuts : next.cuts = s.cuts := congrArg View.cuts view
    rw [rows, cuts]
    exact inv.rows
  beyond := by
    rw [seq]
    exact inv.beyond
  nWait running := by
    have stop : next.stop = s.stop := congrArg View.stop view
    rw [stop] at running
    rw [nWait, seq]
    exact inv.nWait running

/-- A sequence that waits is in no microbatch. -/
theorem SlotInv.wait_absent {v : View Logits} {i : Nat} {q : Seq Logits}
    {slot : Slot V σ κ Row Fold Logits} (inv : SlotInv v i q slot) (state : q.state = .wait) :
    Absent v i := by
  rcases inv.waits state with ⟨job, here, waits⟩
  cases at' : job.point with
  | waiting tok pos =>
      rcases (inv.waiting job tok pos here at').2.2 with ⟨_, absent⟩ | ⟨other, _, _⟩ | ⟨other, _, _⟩
      · exact absent
      · rw [state] at other
        cases other
      · rw [state] at other
        cases other
  | _ =>
      rw [at'] at waits
      cases waits

/-! ## Cutting the microbatch -/

theorem waiting_nodup : (s.waiting cfg).Nodup := List.nodup_range.filter _

theorem mem_waiting {i : Nat} : i ∈ s.waiting cfg ↔ i < cfg.nSlots ∧ (s.seq i).state = .wait := by
  unfold State.waiting
  rw [List.mem_filter, List.mem_range, decide_eq_true_iff]

theorem entries_slots (is : List Nat) : (is.map s.entryOf).map Entry.slot = is := by
  rw [List.map_map]
  exact List.map_id is

/-- The submissions of a slot after another microbatch. -/
theorem subs_of_cut (is : List Nat) (once : is.Nodup) (cuts : List (List Entry)) (i : Nat) :
    subsOf (is.map s.entryOf :: cuts) i =
      if i ∈ is then (s.slot i).submitted :: subsOf cuts i else subsOf cuts i := by
  have alone : (is.map s.entryOf).filter (fun entry => entry.slot == i) =
      (List.replicate (is.count i) i).map s.entryOf := by
    rw [← List.filter_beq, List.filter_map]
    rfl
  unfold subsOf
  rw [List.flatten_cons, List.filter_append, List.map_append, alone]
  split_ifs with inside
  · rw [List.count_eq_one_of_mem once inside]
    rfl
  · rw [List.count_eq_zero_of_not_mem inside]
    rfl

/-- Taking a sequence into the microbatch. -/
def Seq.take (_ : Unit) (q : Seq Logits) : Seq Logits := { q with state := .inflight }

theorem cut_seq : (s.cutBatch cfg).seq =
    scatter Seq.take ((s.waiting cfg).map fun i => (i, ())) s.seq := by
  unfold State.cutBatch
  dsimp only
  split_ifs <;> rfl

theorem cut_slot : (s.cutBatch cfg).slot = s.slot := by
  unfold State.cutBatch
  dsimp only
  split_ifs <;> rfl

theorem cut_stop : (s.cutBatch cfg).stop = s.stop := by
  unfold State.cutBatch
  dsimp only
  split_ifs <;> rfl

theorem cut_n_wait : (s.cutBatch cfg).nWait = s.nWait - (s.waiting cfg).length := by
  unfold State.cutBatch
  dsimp only
  rw [List.length_map]
  split_ifs <;> rfl

theorem cut_rows : (s.cutBatch cfg).rows = s.rows := by
  unfold State.cutBatch
  dsimp only
  split_ifs <;> rfl

theorem cut_batch : (s.cutBatch cfg).worker.batch = (s.waiting cfg).map s.entryOf := by
  unfold State.cutBatch
  dsimp only
  split_ifs with empty stopped
  · rw [List.isEmpty_iff.mp empty]
    rfl
  · rw [List.isEmpty_iff.mp empty]
    rfl
  · rfl

theorem cut_home : (s.cutBatch cfg).worker.home = false := by
  unfold State.cutBatch
  dsimp only
  split_ifs <;> rfl

/-- An empty microbatch is not kept among the cut ones; it has no entries. -/
theorem cut_flatten : (s.cutBatch cfg).cuts.flatten =
    (s.waiting cfg).map s.entryOf ++ s.cuts.flatten := by
  unfold State.cutBatch
  dsimp only
  split_ifs with empty stopped
  · rw [List.isEmpty_iff.mp empty]
    rfl
  · rw [List.isEmpty_iff.mp empty]
    rfl
  · rfl

theorem cut_subs (i : Nat) : subsOf (s.cutBatch cfg).cuts i =
    if i ∈ s.waiting cfg then (s.slot i).submitted :: subsOf s.cuts i else subsOf s.cuts i := by
  rw [← subs_of_cut (s.waiting cfg) waiting_nodup s.cuts i]
  unfold subsOf
  rw [cut_flatten, List.flatten_cons]

theorem units_fst (is : List Nat) : (is.map fun i => (i, ())).map Prod.fst = is := by
  rw [List.map_map]
  exact List.map_id is

theorem cut_seq_hit {i : Nat} (inside : i ∈ s.waiting cfg) :
    (s.cutBatch cfg).seq i = (s.seq i).take () := by
  rw [cut_seq]
  apply scatter_hit
  · rw [units_fst]
    exact waiting_nodup
  · exact List.mem_map.mpr ⟨i, inside, rfl⟩

theorem cut_seq_miss {i : Nat} (outside : i ∉ s.waiting cfg) :
    (s.cutBatch cfg).seq i = s.seq i := by
  rw [cut_seq]
  apply scatter_miss
  rw [units_fst]
  exact outside

/-- A sequence that is taken into the microbatch: its own entry is there. -/
theorem SlotInv.taken {v v' : View Logits} {i : Nat} {q : Seq Logits}
    {slot : Slot V σ κ Row Fold Logits} (inv : SlotInv v i q slot) (state : q.state = .wait)
    (entry : ∀ job tok pos, slot.job = some job → q.tok = tok → q.pos = pos →
      ownEntry i slot job.number tok pos ∈ v'.batch)
    (home : v'.home = false) (stop : v'.stop = v.stop)
    (subs : subsOf v'.cuts i = slot.submitted :: subsOf v.cuts i) :
    SlotInv v' i (q.take ()) slot where
  waiting job tok pos here at' := by
    have way := inv.waiting job tok pos here at'
    refine ⟨way.1, way.2.1, .inflight rfl (entry job tok pos here way.1 way.2.1) ?_⟩
    intro absurd
    rw [home] at absurd
    cases absurd
  stepping job here at' := by
    rcases inv.waits state with ⟨other, same, waits⟩
    rw [here] at same
    cases same
    rw [at'] at waits
    cases waits
  waits absurd := by cases absurd
  rests _ asleep := by
    rcases inv.waits state with ⟨other, same, waits⟩
    rw [asleep other same] at waits
    cases waits
  number := inv.number
  closed := inv.closed
  stays := inv.stays
  once := by
    rw [subs]
    exact List.nodup_cons.mpr ⟨(inv.fresh state).1, inv.once⟩
  cut k inside := by
    rw [subs] at inside
    rcases List.mem_cons.mp inside with same | old
    · exact Nat.le_of_eq same
    · exact inv.cut k old
  fresh absurd := by cases absurd
  dropped k out := by
    refine ⟨(inv.dropped k out).1, ?_⟩
    rw [subs, List.mem_cons, not_or]
    refine ⟨?_, (inv.dropped k out).2⟩
    intro same
    rw [same] at out
    exact (inv.fresh state).2.1 out
  abandoned k out := by
    have old := inv.abandoned k out
    refine ⟨stop.trans old.1, old.2.1, ?_⟩
    rw [subs, List.mem_cons, not_or]
    refine ⟨?_, old.2.2⟩
    intro same
    rw [same] at out
    exact (inv.fresh state).2.2 out
  covered k least most := by
    rw [subs]
    rcases inv.covered k least most with taken | out | out | ⟨same, _⟩
    · exact Or.inl (List.mem_cons_of_mem _ taken)
    · exact Or.inr (Or.inl out)
    · exact Or.inr (Or.inr (Or.inl out))
    · rw [same]
      exact Or.inl List.mem_cons_self

/-- A sequence the decode thread does not touch while it changes its microbatch. -/
theorem SlotInv.passed {v v' : View Logits} {i : Nat} {q : Seq Logits}
    {slot : Slot V σ κ Row Fold Logits} (inv : SlotInv v i q slot)
    (absent : Absent v i) (absent' : Absent v' i) (stop : v'.stop = v.stop)
    (rows : ∀ entry row, (entry, row) ∈ v.rows → (entry, row) ∈ v'.rows)
    (subs : subsOf v'.cuts i = subsOf v.cuts i) : SlotInv v' i q slot where
  waiting job tok pos here at' := by
    have way := inv.waiting job tok pos here at'
    refine ⟨way.1, way.2.1, ?_⟩
    rcases way.2.2 with ⟨state, _⟩ | ⟨_, taken, _⟩ | ⟨state, _, home⟩
    · exact .wait state absent'
    · exact absurd (List.mem_map.mpr ⟨_, taken, rfl⟩) absent
    · apply Underway.ready state absent'
      intro ok
      rcases home ok with ⟨row, is, inside⟩
      exact ⟨row, is, rows _ _ inside⟩
  stepping job here at' := by
    rcases inv.stepping job here at' with ⟨_, row, is, inside⟩
    exact ⟨absent', row, is, rows _ _ inside⟩
  waits := inv.waits
  rests running asleep := by
    rw [stop] at running
    exact ⟨(inv.rests running asleep).1, absent'⟩
  number := inv.number
  closed := inv.closed
  stays := inv.stays
  once := by
    rw [subs]
    exact inv.once
  cut := by
    rw [subs]
    exact inv.cut
  fresh := by
    rw [subs]
    exact inv.fresh
  dropped := by
    rw [subs]
    exact inv.dropped
  abandoned := by
    rw [subs, stop]
    exact inv.abandoned
  covered := by
    rw [subs]
    exact inv.covered

theorem is_wait_iff {q : Seq Logits} : isWait q = true ↔ q.state = .wait := decide_eq_true_iff

theorem cut_inv (inv : Inv cfg s) (free : s.worker.batch = []) : Inv cfg (s.cutBatch cfg) where
  slots i := by
    rw [cut_slot]
    by_cases inside : i ∈ s.waiting cfg
    · rw [cut_seq_hit inside]
      apply (inv.slots i).taken (mem_waiting.mp inside).2
      · intro job tok pos here tok' pos'
        show _ ∈ (s.cutBatch cfg).worker.batch
        rw [cut_batch]
        apply List.mem_map.mpr
        refine ⟨i, inside, ?_⟩
        unfold State.entryOf ownEntry
        rw [here, tok', pos']
        rfl
      · exact cut_home
      · exact cut_stop
      · show subsOf (s.cutBatch cfg).cuts i = _
        rw [cut_subs, if_pos inside]
        rfl
    · rw [cut_seq_miss inside]
      apply (inv.slots i).passed
      · show i ∉ s.worker.batch.map Entry.slot
        rw [free]
        exact List.not_mem_nil
      · show i ∉ (s.cutBatch cfg).worker.batch.map Entry.slot
        rw [cut_batch, entries_slots]
        exact inside
      · exact cut_stop
      · intro entry row old
        show (entry, row) ∈ (s.cutBatch cfg).rows
        rw [cut_rows]
        exact old
      · show subsOf (s.cutBatch cfg).cuts i = _
        rw [cut_subs, if_neg inside]
        rfl
  batch := by
    rw [cut_batch, entries_slots]
    exact waiting_nodup
  inside entry taken := by
    rw [cut_batch] at taken
    rcases List.mem_map.mp taken with ⟨i, inside, is⟩
    rw [← is]
    exact (mem_waiting.mp inside).1
  taken entry taken := by
    rw [cut_batch] at taken
    rw [cut_flatten]
    exact List.mem_append_left _ taken
  rows entry row old := by
    rw [cut_rows] at old
    rw [cut_flatten]
    exact List.mem_append_right _ (inv.rows entry row old)
  beyond i out := by
    rw [cut_seq_miss fun inside => absurd (mem_waiting.mp inside).1 (Nat.not_lt.mpr out)]
    exact inv.beyond i out
  nWait running := by
    rw [cut_stop] at running
    have nobody : count isWait cfg.nSlots (s.cutBatch cfg).seq = 0 := by
      apply count_zero
      intro i below
      by_cases inside : i ∈ s.waiting cfg
      · rw [cut_seq_hit inside]
        rfl
      · rw [cut_seq_miss inside]
        apply Bool.eq_false_iff.mpr
        intro waits
        exact inside (mem_waiting.mpr ⟨below, is_wait_iff.mp waits⟩)
    have everybody : count isWait cfg.nSlots s.seq = (s.waiting cfg).length :=
      count_eq_length isWait cfg.nSlots s.seq
    rw [cut_n_wait, nobody, inv.nWait running, everybody]
    omega

theorem gather_turn_inv (inv : Inv cfg s) (free : s.worker.batch = [])
    (home : s.worker.home = false) : Inv cfg (s.gatherTurn cfg) := by
  unfold State.gatherTurn
  dsimp only
  generalize (if s.nActive < cfg.batchMax then s.nActive else (cfg.batchMax : Int)) = want
  split_ifs with full
  · exact cut_inv inv free
  · apply inv.unseen
    · unfold State.view
      rw [free, home]
      rfl
    · rfl
    · rfl
    · rfl

theorem work_turn_inv (inv : Inv cfg s) (free : s.worker.batch = [])
    (home : s.worker.home = false) : Inv cfg (s.workTurn cfg) := by
  unfold State.workTurn
  split_ifs with stopped nobody
  · apply inv.unseen
    · unfold State.view
      rw [free, home]
      rfl
    · rfl
    · rfl
    · rfl
  · exact inv
  · exact gather_turn_inv inv free home

/-! ## The decode of a microbatch -/

/-- The engine of a slot after a forward it did not run itself. -/
def Slot.withKv (kv : Kv Row Fold) (slot : Slot V σ κ Row Fold Logits) :
    Slot V σ κ Row Fold Logits :=
  { slot with job := slot.job.map fun job => { job with engine := { job.engine with kv := kv } } }

theorem SlotInv.withKv {v : View Logits} {i : Nat} {q : Seq Logits}
    {slot : Slot V σ κ Row Fold Logits} (kv : Kv Row Fold) (inv : SlotInv v i q slot) :
    SlotInv v i q (slot.withKv kv) where
  waiting job tok pos here at' := by
    rcases Option.map_eq_some_iff.mp here with ⟨old, same, is⟩
    rw [← is] at at'
    have way := inv.waiting old tok pos same at'
    rw [← is]
    exact way
  stepping job here at' := by
    rcases Option.map_eq_some_iff.mp here with ⟨old, same, is⟩
    rw [← is] at at'
    have way := inv.stepping old same at'
    rw [← is]
    exact way
  waits state := by
    rcases inv.waits state with ⟨old, same, waits⟩
    refine ⟨{ old with engine := { old.engine with kv := kv } }, ?_, waits⟩
    unfold Slot.withKv
    rw [same]
    rfl
  rests running asleep := by
    apply inv.rests running
    intro old same
    apply asleep { old with engine := { old.engine with kv := kv } }
    unfold Slot.withKv
    rw [same]
    rfl
  number job here := by
    rcases Option.map_eq_some_iff.mp here with ⟨old, same, is⟩
    rw [← is]
    exact inv.number old same
  closed := inv.closed
  stays job here opened := by
    rcases Option.map_eq_some_iff.mp here with ⟨old, same, is⟩
    rw [← is] at opened ⊢
    exact inv.stays old same opened
  once := inv.once
  cut := inv.cut
  fresh := inv.fresh
  dropped := inv.dropped
  abandoned := inv.abandoned
  covered := inv.covered

theorem zip_fst (batch : List Entry) {α : Type*} {outs : List α}
    (full : outs.length = batch.length) :
    ((batch.map Entry.slot).zip outs).map Prod.fst = batch.map Entry.slot := by
  apply List.map_fst_zip
  rw [List.length_map, full]

/-- Every entry of a microbatch has its own row, and its slot is written that row. -/
theorem own_row {batch : List Entry} {α : Type*} {outs : List α} {entry : Entry}
    (full : outs.length = batch.length) (inside : entry ∈ batch) :
    ∃ out, (entry, out) ∈ batch.zip outs ∧ (entry.slot, out) ∈ (batch.map Entry.slot).zip outs := by
  induction batch generalizing outs with
  | nil => cases inside
  | cons first rest induction =>
      cases outs with
      | nil => cases full
      | cons out others =>
          rcases List.mem_cons.mp inside with same | later
          · rw [same]
            exact ⟨out, List.mem_cons_self, List.mem_cons_self⟩
          · rcases induction (Nat.succ.inj full) later with ⟨own, whole, part⟩
            exact ⟨own, List.mem_cons_of_mem _ whole, List.mem_cons_of_mem _ part⟩

/-- The copy of one row home. -/
def Seq.withRow (row : Logits) (q : Seq Logits) : Seq Logits := { q with logits := some row }

/-- The rows come home: to the sequences in hand, each its own. -/
theorem SlotInv.homecoming {v v' : View Logits} {i : Nat} {q q' : Seq Logits}
    {slot : Slot V σ κ Row Fold Logits} (inv : SlotInv v i q slot)
    (batch : v'.batch = v.batch) (cuts : v'.cuts = v.cuts) (stop : v'.stop = v.stop)
    (rows : ∀ entry row, (entry, row) ∈ v.rows → (entry, row) ∈ v'.rows)
    (state : q'.state = q.state) (tok : q'.tok = q.tok) (pos : q'.pos = q.pos)
    (untouched : Absent v i → q' = q)
    (home : ∀ entry ∈ v.batch, entry.slot = i → Home v' q' entry) : SlotInv v' i q' slot where
  waiting job tok' pos' here at' := by
    have way := inv.waiting job tok' pos' here at'
    refine ⟨tok.trans way.1, pos.trans way.2.1, ?_⟩
    rcases way.2.2 with ⟨waits, absent⟩ | ⟨waits, taken, _⟩ | ⟨waits, absent, came⟩
    · apply Underway.wait (state.trans waits)
      unfold Absent
      rw [batch]
      exact absent
    · apply Underway.inflight (state.trans waits)
      · rw [batch]
        exact taken
      · intro _
        exact home _ taken rfl
    · apply Underway.ready (state.trans waits)
      · unfold Absent
        rw [batch]
        exact absent
      · intro ok
        rw [untouched absent] at ok
        rcases came ok with ⟨row, is, inside⟩
        rw [untouched absent]
        exact ⟨row, is, rows _ _ inside⟩
  stepping job here at' := by
    rcases inv.stepping job here at' with ⟨absent, row, is, inside⟩
    unfold Absent
    rw [batch, untouched absent]
    exact ⟨absent, row, is, rows _ _ inside⟩
  waits waits := by
    rw [state] at waits
    exact inv.waits waits
  rests running asleep := by
    rw [stop] at running
    unfold Absent
    rw [batch, state]
    exact inv.rests running asleep
  number := inv.number
  closed := inv.closed
  stays := inv.stays
  once := by
    rw [cuts]
    exact inv.once
  cut := by
    rw [cuts]
    exact inv.cut
  fresh := by
    rw [cuts, state]
    exact inv.fresh
  dropped := by
    rw [cuts]
    exact inv.dropped
  abandoned := by
    rw [cuts, stop]
    exact inv.abandoned
  covered := by
    rw [cuts, state]
    exact inv.covered

/-- Running the forwards of a microbatch changes the caches of its slots. -/
theorem forwards_inv (inv : Inv cfg s) {batch : List Entry} (hand : s.worker = .holding batch)
    (kvs : List (Kv Row Fold)) :
    Inv cfg { s with
      slot := scatter Slot.withKv ((batch.map Entry.slot).zip kvs) s.slot
      worker := .decoded batch false } := by
  have batchIs : s.worker.batch = batch := by
    rw [hand]
    rfl
  have homeIs : s.worker.home = false := by
    rw [hand]
    rfl
  constructor
  · intro i
    have view : ({ s with
        slot := scatter Slot.withKv ((batch.map Entry.slot).zip kvs) s.slot
        worker := .decoded batch false } : State V σ κ Row Fold Logits).view = s.view := by
      unfold State.view
      rw [batchIs, homeIs]
      rfl
    rw [view]
    exact @scatter_keeps _ _ Slot.withKv (SlotInv s.view i (s.seq i))
      (fun kv slot keeps => keeps.withKv kv) _ s.slot i (inv.slots i)
  · show (batch.map Entry.slot).Nodup
    rw [← batchIs]
    exact inv.batch
  · show ∀ entry ∈ batch, entry.slot < cfg.nSlots
    rw [← batchIs]
    exact inv.inside
  · show ∀ entry ∈ batch, entry ∈ s.cuts.flatten
    rw [← batchIs]
    exact inv.taken
  · exact inv.rows
  · exact inv.beyond
  · exact inv.nWait

/-- The rows of a microbatch that has been decoded are copied home. -/
def State.bringHome (s : State V σ κ Row Fold Logits) (batch : List Entry) (rows : List Logits) :
    State V σ κ Row Fold Logits :=
  { s with
    seq := scatter Seq.withRow ((batch.map Entry.slot).zip rows) s.seq
    rows := batch.zip rows ++ s.rows
    worker := .decoded batch true }

theorem bring_home_seq {batch : List Entry} {rows : List Logits} (i : Nat) :
    ((s.bringHome batch rows).seq i).state = (s.seq i).state ∧
      ((s.bringHome batch rows).seq i).tok = (s.seq i).tok ∧
      ((s.bringHome batch rows).seq i).pos = (s.seq i).pos := by
  exact @scatter_keeps _ _ Seq.withRow
    (fun q => q.state = (s.seq i).state ∧ q.tok = (s.seq i).tok ∧ q.pos = (s.seq i).pos)
    (fun _ _ keeps => keeps) _ s.seq i ⟨rfl, rfl, rfl⟩

theorem bring_home_inv (inv : Inv cfg s) {batch : List Entry}
    (hand : s.worker = .decoded batch false) {rows : List Logits}
    (full : rows.length = batch.length) : Inv cfg (s.bringHome batch rows) := by
  have batchIs : s.worker.batch = batch := by
    rw [hand]
    rfl
  have once : (batch.map Entry.slot).Nodup := by
    rw [← batchIs]
    exact inv.batch
  constructor
  · intro i
    apply (inv.slots i).homecoming
    · exact batchIs.symm
    · rfl
    · rfl
    · intro entry row old
      exact List.mem_append_right _ old
    · exact (bring_home_seq i).1
    · exact (bring_home_seq i).2.1
    · exact (bring_home_seq i).2.2
    · intro absent
      apply scatter_miss
      rw [zip_fst batch full, ← batchIs]
      exact absent
    · intro entry taken here
      have inside : entry ∈ batch := by
        rw [← batchIs]
        exact taken
      rcases own_row full inside with ⟨row, whole, part⟩
      refine ⟨row, ?_, List.mem_append_left _ whole⟩
      rw [here] at part
      have hit := scatter_hit Seq.withRow (by
        rw [zip_fst batch full]
        exact once) part s.seq
      exact congrArg Seq.logits hit
  · exact once
  · show ∀ entry ∈ batch, entry.slot < cfg.nSlots
    rw [← batchIs]
    exact inv.inside
  · show ∀ entry ∈ batch, entry ∈ s.cuts.flatten
    rw [← batchIs]
    exact inv.taken
  · intro entry row here
    rcases List.mem_append.mp here with fresh | old
    · apply inv.taken
      rw [batchIs]
      exact (List.of_mem_zip fresh).1
    · exact inv.rows entry row old
  · intro i out
    rw [(bring_home_seq i).1]
    exact inv.beyond i out
  · intro running
    have same : count isWait cfg.nSlots (s.bringHome batch rows).seq =
        count isWait cfg.nSlots s.seq := by
      apply count_congr
      intro i _
      unfold isWait
      rw [(bring_home_seq i).1]
    rw [same]
    exact inv.nWait running

theorem decode_batch_eq (batch : List Entry) (ok : Bool) (rows : List Logits)
    (kvs : List (Kv Row Fold)) : s.decodeBatch batch ok rows kvs =
      let ran : State V σ κ Row Fold Logits := { s with
        slot := scatter Slot.withKv ((batch.map Entry.slot).zip kvs) s.slot
        worker := .decoded batch false }
      if ok then ran.bringHome batch rows else ran := by
  cases ok with
  | true => rfl
  | false => rfl

theorem decode_inv (inv : Inv cfg s) {batch : List Entry} (hand : s.worker = .holding batch)
    {ok : Bool} {rows : List Logits} {kvs : List (Kv Row Fold)}
    (full : rows.length = batch.length) : Inv cfg (s.decodeBatch batch ok rows kvs) := by
  have ran := forwards_inv inv hand kvs
  rw [decode_batch_eq]
  cases ok with
  | true => exact bring_home_inv ran rfl full
  | false => exact ran

/-! ## Waking the slots, and the stop -/

/-- The result of a microbatch, for one of its sequences. -/
def Seq.wake (ok : Bool) (_ : Unit) (q : Seq Logits) : Seq Logits :=
  { q with ok := ok, state := .ready }

/-- The sequences of the microbatch are ready, and nothing is in hand. -/
theorem SlotInv.woken {v v' : View Logits} {i : Nat} {q : Seq Logits}
    {slot : Slot V σ κ Row Fold Logits} (inv : SlotInv v i q slot) (here : ¬ Absent v i)
    (batch : v'.batch = []) (cuts : v'.cuts = v.cuts) (rows : v'.rows = v.rows)
    (stop : v'.stop = v.stop) : SlotInv v' i (q.wake v.home ()) slot where
  waiting job tok pos same at' := by
    have way := inv.waiting job tok pos same at'
    refine ⟨way.1, way.2.1, ?_⟩
    rcases way.2.2 with ⟨_, absent⟩ | ⟨_, _, home⟩ | ⟨_, absent, _⟩
    · exact absurd absent here
    · apply Underway.ready rfl
      · unfold Absent
        rw [batch]
        exact List.not_mem_nil
      · intro ok
        rcases home ok with ⟨row, is, inside⟩
        refine ⟨row, is, ?_⟩
        rw [rows]
        exact inside
    · exact absurd absent here
  stepping job same at' := absurd (inv.stepping job same at').1 here
  waits absurd := by cases absurd
  rests running asleep := by
    rw [stop] at running
    exact absurd (inv.rests running asleep).2 here
  number := inv.number
  closed := inv.closed
  stays := inv.stays
  once := by
    rw [cuts]
    exact inv.once
  cut := by
    rw [cuts]
    exact inv.cut
  fresh absurd := by cases absurd
  dropped := by
    rw [cuts]
    exact inv.dropped
  abandoned := by
    rw [cuts, stop]
    exact inv.abandoned
  covered k least most := by
    rw [cuts]
    rcases inv.covered k least most with taken | out | out | ⟨_, state⟩
    · exact Or.inl taken
    · exact Or.inr (Or.inl out)
    · exact Or.inr (Or.inr (Or.inl out))
    · exact absurd (inv.wait_absent state) here

theorem entry_units_fst (batch : List Entry) :
    (batch.map fun entry => (entry.slot, ())).map Prod.fst = batch.map Entry.slot := by
  rw [List.map_map]
  rfl

theorem publish_hit (inv : Inv cfg s) {batch : List Entry} {ok : Bool}
    (hand : s.worker = .given batch ok) {i : Nat} (here : ¬ Absent s.view i) :
    (s.publish batch ok).seq i = (s.seq i).wake ok () := by
  have batchIs : s.worker.batch = batch := by
    rw [hand]
    rfl
  have once : ((batch.map fun entry => (entry.slot, ())).map Prod.fst).Nodup := by
    rw [entry_units_fst, ← batchIs]
    exact inv.batch
  have inside : i ∈ s.worker.batch.map Entry.slot := not_not.mp here
  rw [batchIs] at inside
  rcases List.mem_map.mp inside with ⟨entry, taken, is⟩
  apply scatter_hit (Seq.wake ok) once
  rw [← is]
  exact List.mem_map.mpr ⟨entry, taken, rfl⟩

theorem publish_miss {batch : List Entry} {ok : Bool} (hand : s.worker = .given batch ok) {i : Nat}
    (absent : Absent s.view i) : (s.publish batch ok).seq i = s.seq i := by
  have batchIs : s.worker.batch = batch := by
    rw [hand]
    rfl
  apply scatter_miss (Seq.wake ok)
  rw [entry_units_fst, ← batchIs]
  exact absent

theorem publish_inv (inv : Inv cfg s) {batch : List Entry} {ok : Bool}
    (hand : s.worker = .given batch ok) : Inv cfg (s.publish batch ok) := by
  have homeIs : s.view.home = ok := by
    show s.worker.home = ok
    rw [hand]
    rfl
  constructor
  · intro i
    by_cases absent : Absent s.view i
    · rw [publish_miss hand absent]
      apply (inv.slots i).passed absent
      · exact List.not_mem_nil
      · rfl
      · intro entry row old
        exact old
      · rfl
    · rw [publish_hit inv hand absent, ← homeIs]
      apply (inv.slots i).woken absent
      · rfl
      · rfl
      · rfl
      · rfl
  · exact List.nodup_nil
  · intro entry absurd
    cases absurd
  · intro entry absurd
    cases absurd
  · exact inv.rows
  · intro i out
    have absent : Absent s.view i := by
      intro inside
      rcases List.mem_map.mp inside with ⟨entry, taken, is⟩
      have below := inv.inside entry taken
      omega
    rw [publish_miss hand absent]
    exact inv.beyond i out
  · intro running
    have same : count isWait cfg.nSlots (s.publish batch ok).seq =
        count isWait cfg.nSlots s.seq := by
      apply count_congr
      intro i _
      by_cases absent : Absent s.view i
      · rw [publish_miss hand absent]
      · rw [publish_hit inv hand absent]
        have awake : isWait (s.seq i) = false := by
          apply Bool.eq_false_iff.mpr
          intro waits
          exact absent ((inv.slots i).wait_absent (is_wait_iff.mp waits))
        rw [awake]
        rfl
    rw [same]
    exact inv.nWait running

theorem SlotInv.stopped {v v' : View Logits} {i : Nat} {q : Seq Logits}
    {slot : Slot V σ κ Row Fold Logits} (inv : SlotInv v i q slot)
    (is : v' = { v with stop := true }) : SlotInv v' i q slot := by
  rw [is]
  constructor
  · intro job tok pos same at'
    have way := inv.waiting job tok pos same at'
    refine ⟨way.1, way.2.1, ?_⟩
    rcases way.2.2 with ⟨state, absent⟩ | ⟨state, taken, home⟩ | ⟨state, absent, home⟩
    · exact .wait state absent
    · exact .inflight state taken home
    · exact .ready state absent home
  · exact inv.stepping
  · exact inv.waits
  · intro absurd
    cases absurd
  · exact inv.number
  · exact inv.closed
  · exact inv.stays
  · exact inv.once
  · exact inv.cut
  · exact inv.fresh
  · exact inv.dropped
  · intro k out
    exact ⟨rfl, (inv.abandoned k out).2⟩
  · exact inv.covered

theorem stop_inv (inv : Inv cfg s) : Inv cfg { s with stop := true } where
  slots i := (inv.slots i).stopped rfl
  batch := inv.batch
  inside := inv.inside
  taken := inv.taken
  rows := inv.rows
  beyond := inv.beyond
  nWait absurd := by cases absurd

/-! ## Every event -/

theorem fire_worker_inv (inv : Inv cfg s) {event : Event V σ κ Row Fold Logits}
    (fired : fireWorker cfg s event = some next) : Inv cfg next := by
  cases event with
  | work =>
      simp only [fireWorker] at fired
      split at fired
      · next asleep =>
          cases fired
          apply work_turn_inv inv
          · rw [asleep]
            rfl
          · rw [asleep]
            rfl
      · cases fired
  | gather timedOut =>
      simp only [fireWorker] at fired
      split at fired
      · next gathering =>
          cases fired
          have free : s.worker.batch = [] := by
            rw [gathering]
            rfl
          cases timedOut with
          | true => exact cut_inv inv free
          | false =>
              apply gather_turn_inv inv free
              rw [gathering]
              rfl
      · cases fired
  | take =>
      simp only [fireWorker] at fired
      split at fired
      · next batch hand =>
          split_ifs at fired
          all_goals
            cases fired
            apply inv.unseen
            · unfold State.view
              rw [hand]
              rfl
            · rfl
            · rfl
            · rfl
      · cases fired
  | turn =>
      simp only [fireWorker] at fired
      split at fired
      · next batch ticket hand =>
          split_ifs at fired
          cases fired
          apply inv.unseen
          · unfold State.view
            rw [hand]
            rfl
          · rfl
          · rfl
          · rfl
      · cases fired
  | decode ok rows kvs =>
      simp only [fireWorker] at fired
      split at fired
      · next batch hand =>
          split_ifs at fired with full
          cases fired
          exact decode_inv inv hand full.1
      · cases fired
  | give =>
      simp only [fireWorker] at fired
      split at fired
      · next batch ok hand =>
          cases fired
          apply inv.unseen
          · unfold State.view
            rw [hand]
            rfl
          · rfl
          · rfl
          · rfl
      · cases fired
  | publish =>
      simp only [fireWorker] at fired
      split at fired
      · next batch ok hand =>
          cases fired
          exact publish_inv inv hand
      · cases fired
  | prefillBegin =>
      simp only [fireWorker] at fired
      split_ifs at fired
      all_goals
        cases fired
        exact inv.unseen rfl rfl rfl rfl
  | prefillEnd ticket =>
      simp only [fireWorker] at fired
      split_ifs at fired
      all_goals
        cases fired
        exact inv.unseen rfl rfl rfl rfl
  | stop =>
      cases fired
      exact stop_inv inv
  | _ => cases fired

/-- What one event does: a request arrives, the decode thread moves, or a slot thread does. -/
theorem fire_cases {event : Event V σ κ Row Fold Logits} (fired : fire cfg s event = some next) :
    (∃ i request, event = .arrive i request ∧ i < cfg.nSlots ∧ arrive s i request = some next) ∨
      fireWorker cfg s event = some next ∨
      ∃ i now job, event.slot? = some (i, now) ∧ i < cfg.nSlots ∧ (s.slot i).job = some job ∧
        (fireSlot s i job now event = some next ∨ fireSolo cfg s i job event = some next) := by
  cases event with
  | arrive i request =>
      simp only [fire] at fired
      split_ifs at fired with inside
      exact Or.inl ⟨i, request, rfl, inside, fired⟩
  | enter i | step i | finish i | soloTake i | soloTurn i | soloRun i | soloGive i
  | check i now | submit i now | wake i now =>
      simp only [fire, Event.slot?] at fired
      split_ifs at fired with inside
      cases here : (s.slot i).job with
      | none =>
          rw [here] at fired
          cases fired
      | some job =>
          rw [here] at fired
          exact Or.inr (Or.inr ⟨i, _, job, rfl, inside, here, Option.or_eq_some_iff.mp fired |>.imp
            id fun solo => solo.2⟩)
  | _ => exact Or.inr (Or.inl fired)

theorem fire_inv (inv : Inv cfg s) {event : Event V σ κ Row Fold Logits}
    (fired : fire cfg s event = some next) : Inv cfg next := by
  rcases fire_cases fired with ⟨i, request, _, inside, arrived⟩ | moved |
    ⟨i, now, job, _, inside, here, slot | solo⟩
  · exact arrive_inv inv inside arrived
  · exact fire_worker_inv inv moved
  · exact fire_slot_inv inv inside here slot
  · exact fire_solo_inv inv inside here solo

theorem starts_inv (starts : Starts s) : Inv cfg s where
  slots i := by
    have free : s.view.batch = [] := by
      show s.worker.batch = []
      rw [starts.worker]
      rfl
    have uncut : s.view.cuts = [] := starts.cuts
    rw [starts.slot i]
    constructor
    · intro job tok pos absurd
      cases absurd
    · intro job absurd
      cases absurd
    · intro absurd
      rw [starts.seq i] at absurd
      cases absurd
    · intro _ _
      refine ⟨starts.seq i, ?_⟩
      unfold Absent
      rw [free]
      exact List.not_mem_nil
    · intro job absurd
      cases absurd
    · intro r absurd
      cases absurd
    · intro job absurd
      cases absurd
    · rw [uncut]
      exact List.nodup_nil
    · rw [uncut]
      intro k absurd
      cases absurd
    · intro absurd
      rw [starts.seq i] at absurd
      cases absurd
    · intro k absurd
      cases absurd
    · intro k absurd
      cases absurd
    · intro k least most
      exact absurd (Nat.le_trans least most) (Nat.not_succ_le_zero 0)
  batch := by
    rw [starts.worker]
    exact List.nodup_nil
  inside entry absurd := by
    rw [starts.worker] at absurd
    cases absurd
  taken entry absurd := by
    rw [starts.worker] at absurd
    cases absurd
  rows entry row absurd := by
    rw [starts.rows] at absurd
    cases absurd
  beyond i _ := by
    rw [starts.seq i]
    intro absurd
    cases absurd
  nWait _ := by
    have nobody : count isWait cfg.nSlots s.seq = 0 := by
      apply count_zero
      intro i _
      unfold isWait
      rw [starts.seq i]
      rfl
    rw [starts.nWait, nobody]
    rfl

end GridcoreRunner.Scheduler
