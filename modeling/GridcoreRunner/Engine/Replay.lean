import GridcoreRunner.Engine.Prelude
import GridcoreRunner.Runs

/-!
# Cutting the constrained document short

The recorded document is what the live validator has taken, wherever its bytes came
in, so that a validator fed the record from the start is in the live one's state.
A truncation keeps this and shortens both.
-/

namespace GridcoreRunner.Generation

set_option autoImplicit false

open GridcoreRunner.Runs

variable {V σ κ Logits : Type*} {c : Config V σ κ Logits} {m : Machine V}

/-- What is done to a constrained engine: a token is fed, or the document is cut. -/
inductive Deed
  | feed (bytes : Bytes)
  | truncate (count : Int)

/-- `engine_constraint_truncate`; a count below one does nothing. -/
def Heard.truncate (c : Config V σ κ Logits) (h : Heard V σ κ) (count : Int) : Heard V σ κ :=
  { h with
    gen := constraintTruncate c h.gen count.toNat
    taken := h.taken.take (h.taken.length - count.toNat) }

def act (c : Config V σ κ Logits) (h : Heard V σ κ) : Deed → Option (Heard V σ κ)
  | .feed bytes => hear c h bytes
  | .truncate count => some (h.truncate c count)

/-- A validator at its start and an empty record, in any phase of the prelude. -/
def Fresh (m : Machine V) (h : Heard V σ κ) : Prop :=
  h.gen.pv = m.init ∧ h.gen.cdoc = [] ∧ h.gen.cdocRec = true ∧ h.taken = []

/-- The record is not given up for lack of memory. -/
def Recording (c : Config V σ κ Logits) (h : Heard V σ κ) (deed : Deed) : Prop :=
  ∀ next, act c h deed = some next → next.gen.cdocRec = true

/-- The record is what the validator has taken, and the validator is where the record
leads it. -/
structure Recorded (m : Machine V) (h : Heard V σ κ) : Prop where
  kept : h.gen.cdocRec = true
  same : h.gen.cdoc = h.taken
  leads : m.feed m.init h.gen.cdoc = some h.gen.pv

theorem cdoc_put_recorded {g : Gen V σ κ} {bytes : Bytes}
    (kept : (cdocPut g bytes).cdocRec = true) :
    g.cdocRec = true ∧ (cdocPut g bytes).cdoc = g.cdoc ++ bytes := by
  unfold cdocPut at kept ⊢
  split_ifs at kept ⊢ with nothing much
  · rcases Bool.or_eq_true_iff.mp nothing with off | empty
    · rw [kept] at off
      cases off
    · rw [List.isEmpty_iff.mp empty, List.append_nil]
      exact ⟨kept, rfl⟩
  · simp only [Bool.or_eq_true, Bool.not_eq_true'] at nothing
    push Not at nothing
    exact ⟨by simpa using nothing.1, rfl⟩

/-- A payload chunk behind a record that leads to the validator's state. -/
theorem recorded_put {g : Gen V σ κ} {bytes : Bytes} {v : V} {taken : Bytes} {opened : Bool}
    (same : g.cdoc = taken) (leads : m.feed m.init g.cdoc = some g.pv)
    (fed : m.feed g.pv bytes = some v)
    (kept : (cdocPut { g with pv := v } bytes).cdocRec = true) :
    Recorded m { gen := cdocPut { g with pv := v } bytes, taken := taken ++ bytes, opened } where
  kept := kept
  same := by
    rw [(cdoc_put_recorded kept).2]
    show g.cdoc ++ bytes = taken ++ bytes
    rw [same]
  leads := by
    rw [(cdoc_put_recorded kept).2, (cdoc_put_frame _ bytes).2.2.2.2]
    show m.feed m.init (g.cdoc ++ bytes) = some v
    rw [Machine.feed_append, leads, Option.bind_some, fed]

/-- The thinking block: nothing is recorded, or what follows its end. -/
theorem recorded_think (reads : c.payload = m.payload) {g : Gen V σ κ} {bytes : Bytes}
    {taken : Bytes} {opened : Bool} (before : Recorded m { gen := g, taken, opened })
    (ok : (feedThink c g bytes).ok = true)
    (kept : (feedThink c g bytes).gen.cdocRec = true) :
    Recorded m ⟨(feedThink c g bytes).gen,
      (afterClose (c.thinkClose.getD []) g.closeMatch bytes).1.getD taken, opened⟩ := by
  rcases found : afterClose (c.thinkClose.getD []) g.closeMatch bytes with ⟨_ | rest, left_⟩
  · have spec := (feed_think_none found).2
    rw [spec]
    exact ⟨before.kept, before.same, before.leads⟩
  · rcases feed_think_some reads found ok with ⟨v, fed, spec⟩
    rw [spec] at kept ⊢
    have begins : (closed c g).pv = m.init := by
      show c.payload.init = m.init
      rw [reads]
      rfl
    have fresh : m.feed m.init (closed c g).cdoc = some (closed c g).pv := by
      rw [begins]
      rfl
    rw [← begins] at fed
    exact recorded_put rfl fresh fed kept

theorem hear_recorded (reads : c.payload = m.payload) {h next : Heard V σ κ} {bytes : Bytes}
    (before : Recorded m h) (heard : hear c h bytes = some next)
    (kept : next.gen.cdocRec = true) : Recorded m next := by
  rcases hear_some heard with ⟨ok, rfl⟩
  rcases h with ⟨g, taken, opened⟩
  have same : g.cdoc = taken := before.same
  simp only at kept ok ⊢
  unfold constraintFeed at kept ok ⊢
  unfold takes
  cases phase : g.phase with
  | output =>
      simp only [phase] at kept ok ⊢
      rcases feed_output_ok ok with ⟨v, fed, spec⟩
      rw [spec] at kept ⊢
      exact recorded_put same before.leads (payload_trial_some reads fed) kept
  | afterThink =>
      simp only [phase] at kept ok ⊢
      rcases feed_output_ok ok with ⟨v, fed, spec⟩
      rw [spec] at kept ⊢
      exact @recorded_put _ _ _ m { g with phase := .output } bytes v taken _ same before.leads
        (payload_trial_some reads fed) kept
  | think =>
      simp only [phase] at kept ok ⊢
      exact recorded_think reads ⟨before.kept, same, before.leads⟩ ok kept
  | probe =>
      simp only [phase] at kept ok ⊢
      rw [tag_seen_probed phase]
      rcases scan : probed c g bytes with ⟨_ | rest, possible, count⟩
      · have spec := (feed_probe_none scan).2 ok
        rw [spec] at kept ⊢
        unfold held at kept ⊢
        cases fed : c.payload.feed g.pv bytes with
        | none => exact ⟨before.kept, same, before.leads⟩
        | some v =>
            rw [fed] at kept
            rw [reads] at fed
            have put := @recorded_put _ _ _ m g bytes v taken opened same before.leads fed kept
            exact ⟨put.kept, put.same, put.leads⟩
      · have spec := feed_probe_some scan
        rw [spec.1] at ok
        rw [spec.2] at kept ⊢
        have begun : ∀ opened, Recorded m ⟨thinking c g, [], opened⟩ := by
          intro opened
          refine ⟨before.kept, rfl, ?_⟩
          show m.feed m.init [] = some c.payload.init
          rw [reads]
          rfl
        exact recorded_think reads (begun _) ok kept

theorem truncate_recorded (reads : c.payload = m.payload) (constrained : c.constrained = true)
    {h : Heard V σ κ} (before : Recorded m h) (count : Int) :
    Recorded m (h.truncate c count) := by
  have whole := before.leads
  have parts := List.take_append_drop (h.gen.cdoc.length - count.toNat) h.gen.cdoc
  rw [← parts, Machine.feed_append] at whole
  rcases Option.bind_eq_some_iff.mp whole with ⟨v, front, _⟩
  have begins : c.payload.init = m.init := by
    rw [reads]
    rfl
  unfold Heard.truncate constraintTruncate
  by_cases nothing : (count.toNat = 0 || !c.constrained || !h.gen.cdocRec || h.gen.cdoc.isEmpty) =
      true
  · rw [if_pos nothing]
    have untouched : h.taken.take (h.taken.length - count.toNat) = h.taken := by
      simp only [constrained, before.kept, before.same, Bool.not_true, Bool.or_false,
        Bool.or_eq_true, decide_eq_true_eq, List.isEmpty_iff] at nothing
      rcases nothing with zero_ | empty
      · rw [zero_, Nat.sub_zero, List.take_length]
      · rw [empty, List.take_nil]
    rw [untouched]
    exact before
  · rw [if_neg nothing]
    have cut : (constraintPayloadReset c h.gen).pv = m.init := begins
    dsimp only
    rw [cut, ← before.same]
    by_cases empty : h.gen.cdoc.take (h.gen.cdoc.length - count.toNat) = []
    · rw [empty]
      refine ⟨before.kept, rfl, ?_⟩
      show m.feed m.init [] = some c.payload.init
      rw [begins]
      rfl
    · rw [if_neg (by simpa using empty)]
      have fed : c.payload.feed m.init (h.gen.cdoc.take (h.gen.cdoc.length - count.toNat)) =
          some v := by
        rw [reads]
        exact front
      rw [fed]
      exact ⟨before.kept, rfl, front⟩

/-- Over every run the record holds exactly the payload that was taken and not cut, the
validator is where a fresh one fed the record would be, and a cut takes from the
record's end what it is asked for, or all of it. -/
theorem truncation_replays {h : Heard V σ κ} (reads : c.payload = m.payload)
    (constrained : c.constrained = true) (run : Reaches (Fresh m) (act c) (Recording c) h) :
    h.gen.cdoc = h.taken ∧ m.feed m.init h.gen.cdoc = some h.gen.pv ∧
      ∀ count : Int,
        (h.truncate c count).gen.cdoc = h.gen.cdoc.take (h.gen.cdoc.length - count.toNat) ∧
          (h.truncate c count).gen.cdoc.length =
            h.gen.cdoc.length - min count.toNat h.gen.cdoc.length := by
  have recorded : Recorded m h := by
    apply run.invariant
    · rintro start ⟨begins, empty, on, nothing⟩
      refine ⟨on, by rw [empty, nothing], ?_⟩
      rw [empty, begins]
      rfl
    · intro state next deed before meets done_
      have kept := meets next done_
      cases deed with
      | feed bytes => exact hear_recorded reads before done_ kept
      | truncate count =>
          cases done_
          exact truncate_recorded reads constrained before count
  refine ⟨recorded.same, recorded.leads, ?_⟩
  intro count
  have cut := (truncate_recorded reads constrained recorded count).same
  have short : (h.truncate c count).gen.cdoc =
      h.gen.cdoc.take (h.gen.cdoc.length - count.toNat) := by
    rw [cut, recorded.same]
    rfl
  refine ⟨short, ?_⟩
  rw [short, List.length_take]
  omega


/-- A `json_mode` request to a model without a thinking block. -/
def jsonRequest : Config Json.Jsonv Unit Unit Unit := bareRequest .json jsonMachine.payload none

/-- The engine at the start of a `json_mode` request. -/
def jsonStart : Heard Json.Jsonv Unit Unit := heardAt () () .output jsonMachine.init

/-- A document of two bytes is cut by one, and then by more than is left. -/
theorem brace_replays :
    ∃ h, act jsonRequest jsonStart (.feed [123, 34]) = some h ∧
      (h.truncate jsonRequest 1).gen.cdoc = [123] ∧ (h.truncate jsonRequest 7).gen.cdoc = [] := by
  refine ⟨_, rfl, ?_⟩
  have run : Reaches (Fresh jsonMachine) (act jsonRequest) (Recording jsonRequest)
      (advance (act jsonRequest) jsonStart (.feed [123, 34])) := by
    apply Reaches.advance (.start jsonStart ⟨rfl, rfl, rfl, rfl⟩) _ _ rfl
    intro next done_
    cases done_
    rfl
  have replayed := @truncation_replays _ _ _ _ jsonRequest jsonMachine _ rfl rfl run
  exact ⟨(replayed.2.2 1).1, (replayed.2.2 7).1⟩

end GridcoreRunner.Generation
