import GridcoreRunner.Json.InPlace

/-!
# A probe of the json validator sees what a full copy would

Two structs that hold the same below `depth`, and the same in every other field, are
told apart by no function of the validator. A snapshot is such a pair.
-/

namespace GridcoreRunner.Json.InPlace

set_option autoImplicit false

open GridcoreRunner.Relational

/-- The same live part, in a stack that has not overflowed. -/
structure SameLive (a b : Jsonv) : Prop where
  fits : a.depth ≤ stackSize
  stack : ∀ i < a.depth, a.stack i = b.stack i
  depth : a.depth = b.depth
  st : a.st = b.st
  sub : a.sub = b.sub
  lit : a.lit = b.lit
  done : a.done = b.done
  esc : a.esc = b.esc

/-- The same answer, and the same live part left behind. -/
abbrev Same {α : Type} (x y : α × Jsonv) : Prop := Outcomes (fun _ => SameLive) x y

/-- A function of the validator answers alike, and keeps the live parts the same. -/
abbrev Keeps {α : Type} (program : Jsonv → α × Jsonv) : Prop :=
  Agree SameLive program (fun _ => SameLive)

/-- Another stack that holds the same below `depth`. -/
structure Patch (a : Jsonv) (t : Nat → UInt8) : Prop where
  fits : a.depth ≤ stackSize
  stack : ∀ i < a.depth, a.stack i = t i

theorem SameLive.patch {a b : Jsonv} (same : SameLive a b) : Patch a b.stack :=
  ⟨same.fits, same.stack⟩

theorem SameLive.patched {a b : Jsonv} (same : SameLive a b) : b = { a with stack := b.stack } := by
  cases a
  cases b
  cases same.depth
  cases same.st
  cases same.sub
  cases same.lit
  cases same.done
  cases same.esc
  rfl

theorem keeps_of_patch {α : Type} {program : Jsonv → α × Jsonv}
    (patched : ∀ a t, Patch a t → Same (program a) (program { a with stack := t })) :
    Keeps program := by
  intro a b same
  rw [same.patched]
  exact patched a b.stack same.patch

section Patched

variable {a : Jsonv} {t : Nat → UInt8}

/-- Whatever the other fields hold. -/
theorem Patch.live (patch : Patch a t) (st : St) (sub lit : Nat) (done : Bool) (esc : Nat) :
    SameLive ⟨a.stack, a.depth, st, sub, lit, done, esc⟩ ⟨t, a.depth, st, sub, lit, done, esc⟩ :=
  ⟨patch.fits, patch.stack, rfl, rfl, rfl, rfl, rfl, rfl⟩

theorem Patch.same {α : Type} (patch : Patch a t) (answer : α) (st : St) (sub lit : Nat)
    (done : Bool) (esc : Nat) :
    Same (answer, (⟨a.stack, a.depth, st, sub, lit, done, esc⟩ : Jsonv))
      (answer, ⟨t, a.depth, st, sub, lit, done, esc⟩) :=
  ⟨rfl, patch.live st sub lit done esc⟩

theorem Patch.value_done (patch : Patch a t) :
    SameLive (valueDone a) (valueDone { a with stack := t }) := by
  unfold valueDone
  dsimp only
  split
  · apply patch.live
  · apply patch.live

end Patched

theorem pop_keeps : Keeps pop := by
  apply keeps_of_patch
  intro a t patch
  have below : Patch { a with depth := a.depth - 1 } t := by
    constructor
    · exact (Nat.sub_le _ _).trans patch.fits
    · intro i low
      exact patch.stack i (Nat.lt_of_lt_of_le low (Nat.sub_le _ _))
  exact ⟨rfl, below.value_done⟩

theorem push_keeps (c : UInt8) : Keeps (push c) := by
  apply keeps_of_patch
  intro a t patch
  unfold push
  dsimp only
  split
  · apply patch.same
  next room =>
    have pushed : Patch { a with stack := Function.update a.stack a.depth c, depth := a.depth + 1 }
        (Function.update t a.depth c) := by
      constructor
      · exact Nat.lt_of_not_le room
      · intro i low
        dsimp only at low ⊢
        by_cases top : i = a.depth
        · subst top
          simp only [Function.update_self]
        · simp only [Function.update_of_ne top]
          exact patch.stack i (by omega)
    exact pushed.same Fed.kept a.st a.sub a.lit a.done a.esc

theorem feed_value_keeps (c : UInt8) : Keeps (feedValue c) := by
  apply keeps_of_patch
  intro a t patch
  unfold feedValue
  dsimp only
  apply outcomes_ite
  · apply patch.same
  apply outcomes_ite
  · apply push_keeps
    apply patch.live
  apply outcomes_ite
  · apply push_keeps
    apply patch.live
  repeat' apply outcomes_ite
  all_goals apply patch.same

theorem feed_string_keeps (c : UInt8) : Keeps (feedString c) := by
  apply keeps_of_patch
  intro a t patch
  unfold feedString
  dsimp only
  repeat' apply outcomes_ite
  all_goals first
    | apply patch.same
    | exact ⟨rfl, patch.value_done⟩

theorem feed_after_keeps (c : UInt8) : Keeps (feedAfter c) := by
  apply keeps_of_patch
  intro a t patch
  have top : (if 0 < a.depth then t (a.depth - 1) else 0) =
      if 0 < a.depth then a.stack (a.depth - 1) else 0 := by
    split
    next filled => exact (patch.stack _ (Nat.sub_lt filled Nat.one_pos)).symm
    · rfl
  unfold feedAfter
  dsimp only
  rw [top]
  repeat' apply outcomes_ite
  all_goals first
    | apply patch.same
    | apply pop_keeps
      apply patch.live

theorem feed_literal_keeps (c : UInt8) : Keeps (feedLiteral c) := by
  apply keeps_of_patch
  intro a t patch
  have moved : Patch { a with sub := a.sub + 1 } t := ⟨patch.fits, patch.stack⟩
  unfold feedLiteral
  dsimp only
  apply outcomes_ite
  · constructor
    · rfl
    · dsimp only
      split
      · exact moved.value_done
      · apply patch.live
  · apply patch.same

theorem feed_number_keeps (c : UInt8) : Keeps (feedNumber c) := by
  apply keeps_of_patch
  intro a t patch
  have ended : Same (Fed.again, valueDone a) (Fed.again, valueDone { a with stack := t }) :=
    ⟨rfl, patch.value_done⟩
  unfold feedNumber
  dsimp only
  split
  all_goals repeat' apply outcomes_ite
  all_goals first
    | exact ended
    | apply patch.same

theorem feed_byte_keeps (c : UInt8) : Keeps (feedByte c) := by
  apply keeps_of_patch
  intro a t patch
  have live : SameLive a { a with stack := t } := patch.live a.st a.sub a.lit a.done a.esc
  unfold feedByte
  dsimp only
  split
  · apply outcomes_ite
    · apply push_keeps
      apply patch.live
    · apply patch.same
  · apply outcomes_ite
    · exact pop_keeps _ _ live
    · exact feed_value_keeps c _ _ live
  · exact feed_value_keeps c _ _ live
  · repeat' apply outcomes_ite
    · apply patch.same
    · apply patch.same
    · exact pop_keeps _ _ live
    · apply patch.same
  · repeat' apply outcomes_ite
    all_goals apply patch.same
  · exact feed_string_keeps c _ _ live
  · exact feed_string_keeps c _ _ live
  · repeat' apply outcomes_ite
    all_goals apply patch.same
  · exact feed_after_keeps c _ _ live
  · exact feed_literal_keeps c _ _ live
  · apply patch.same
  · exact feed_number_keeps c _ _ live

theorem feed_round_keeps (c : UInt8) : Keeps (feedRound c) := by
  intro a b same
  have first := feed_byte_keeps c a b same
  have second := feed_byte_keeps c _ _ first.2
  unfold feedRound
  rw [← Prod.eta (feedByte c a), ← Prod.eta (feedByte c b), ← first.1]
  cases (feedByte c a).1 with
  | refused => exact ⟨rfl, first.2⟩
  | kept => exact ⟨rfl, first.2⟩
  | again =>
      constructor
      · dsimp only
        rw [second.1]
      · exact second.2

theorem jsonv_feed_keeps (s : Bytes) : Keeps (jsonvFeed s) := by
  induction s with
  | nil =>
      intro a b same
      exact ⟨rfl, same⟩
  | cons c s ih =>
      intro a b same
      have round := feed_round_keeps c a b same
      unfold jsonvFeed
      rw [← Prod.eta (feedRound c a), ← Prod.eta (feedRound c b), ← round.1]
      cases (feedRound c a).1 with
      | false => exact ⟨rfl, round.2⟩
      | true => exact ih _ _ round.2

theorem value_end_same {a b : Jsonv} (same : SameLive a b) : jsonvValueEnd a = jsonvValueEnd b := by
  unfold jsonvValueEnd
  rw [same.done, same.depth, same.st]

/-! ## The forced completion -/

theorem close_string_keeps : Keeps closeString := by
  apply keeps_of_patch
  intro a t patch
  have closed : Patch { a with sub := subClosed a.sub } t := ⟨patch.fits, patch.stack⟩
  unfold closeString
  dsimp only
  apply outcomes_ite
  · apply patch.same
  apply outcomes_ite
  · exact ⟨rfl, closed.value_done⟩
  · apply patch.same

theorem close_colon_keeps : Keeps closeColon := by
  apply keeps_of_patch
  intro a t patch
  unfold closeColon
  apply outcomes_ite
  all_goals apply patch.same

theorem close_key_keeps : Keeps closeKey := by
  apply keeps_of_patch
  intro a t patch
  unfold closeKey
  apply outcomes_ite
  all_goals apply patch.same

theorem close_literal_keeps : Keeps closeLiteral := by
  apply keeps_of_patch
  intro a t patch
  have spelled : Patch { a with sub := max a.sub (LITS a.lit).length } t :=
    ⟨patch.fits, patch.stack⟩
  unfold closeLiteral
  apply outcomes_ite
  · exact ⟨rfl, spelled.value_done⟩
  · apply patch.same

theorem close_number_keeps : Keeps closeNumber := by
  apply keeps_of_patch
  intro a t patch
  unfold closeNumber
  apply outcomes_ite
  · exact ⟨rfl, patch.value_done⟩
  · apply patch.same

theorem close_whole_keeps : Keeps closeWhole := by
  apply keeps_of_patch
  intro a t patch
  unfold closeWhole
  apply outcomes_ite
  · exact ⟨rfl, patch.value_done⟩
  · apply patch.same

theorem close_value_keeps : Keeps closeValue := by
  apply keeps_of_patch
  intro a t patch
  unfold closeValue
  apply outcomes_ite
  · exact ⟨rfl, patch.value_done⟩
  · apply patch.same

/-- The `while` looks at the slots below the depth it is at. -/
theorem close_containers_same (depth : Nat) {a : Jsonv} {t : Nat → UInt8} (patch : Patch a t)
    (reaches : depth ≤ a.depth) :
    Same (closeContainers depth a) (closeContainers depth { a with stack := t }) := by
  induction depth generalizing a t with
  | zero => exact ⟨rfl, patch.live a.st a.sub a.lit a.done a.esc⟩
  | succ depth ih =>
      have popped : Patch { a with depth := depth } t := by
        constructor
        · exact (Nat.le_of_succ_le reaches).trans patch.fits
        · intro i low
          exact patch.stack i (Nat.lt_trans low reaches)
      have settled : SameLive (valueDone { a with depth := depth })
          (valueDone { a with stack := t, depth := depth }) := popped.value_done
      have deep : depth ≤ (valueDone { a with depth := depth }).depth := by
        unfold valueDone
        split
        all_goals exact le_rfl
      have rest := ih settled.patch deep
      rw [← settled.patched] at rest
      unfold closeContainers
      dsimp only
      rw [patch.stack depth reaches]
      apply outcomes_ite
      · exact outcomes_map _ rest
      · exact ⟨rfl, patch.live a.st a.sub a.lit a.done a.esc⟩

theorem close_all_keeps : Keeps closeAll := by
  apply agree_bind close_string_keeps
  intro string
  apply agree_bind close_colon_keeps
  intro colon
  apply agree_bind close_key_keeps
  intro key
  apply agree_bind close_literal_keeps
  intro literal
  apply agree_bind close_number_keeps
  intro number
  apply agree_bind close_whole_keeps
  intro whole
  apply agree_bind close_value_keeps
  intro value
  have containersKeep : Keeps (fun v => closeContainers v.depth v) := by
    apply keeps_of_patch
    intro a t patch
    exact close_containers_same a.depth patch le_rfl
  apply agree_bind containersKeep
  intro containers
  apply agree_pure
  intro a b same
  exact same

theorem jsonv_close_keeps (cap : Nat) : Keeps (jsonvClose cap) := by
  intro a b same
  have closed := close_all_keeps a b same
  unfold jsonvClose
  dsimp only
  rw [same.st, same.done]
  apply outcomes_ite
  · exact ⟨rfl, same⟩
  · exact outcomes_map _ closed

/-! ## Probes -/

/-- Snapshots of two structs with the same live part, in any two scratches. -/
theorem snapshot_alike (dst dst' : Jsonv) {a b : Jsonv} (same : SameLive a b) :
    SameLive (jsonvSnapshot dst a) (jsonvSnapshot dst' b) := by
  constructor
  · exact same.fits
  · intro i low
    unfold jsonvSnapshot at low ⊢
    dsimp only at low ⊢
    rw [← same.depth, min_eq_left same.fits, if_pos low, if_pos low]
    exact same.stack i low
  · exact same.depth
  · exact same.st
  · exact same.sub
  · exact same.lit
  · exact same.done
  · exact same.esc

/-- A snapshot over the struct itself changes nothing. -/
theorem snapshot_self (v : Jsonv) : jsonvSnapshot v v = v := by
  unfold jsonvSnapshot
  simp only [ite_self]

/-- A snapshot holds what is live in the struct it was taken of. -/
theorem snapshot_same (dst : Jsonv) {src : Jsonv} (live : SameLive src src) :
    SameLive src (jsonvSnapshot dst src) := by
  have copies := snapshot_alike src dst live
  rw [snapshot_self] at copies
  exact copies

/-- What a caller can do with a validator: feed it, probe it, go on in the scratch of a
probe, close it, and ask. -/
inductive Command
  | feed (s : Bytes)
  | trial (scratch : Jsonv) (s : Bytes)
  | enterTrial (scratch : Jsonv) (s : Bytes)
  | close (cap : Nat)
  | valueEnd
  | isDone

/-- What the caller sees. -/
inductive Answer
  | verdict (legal : Bool)
  | closed (text : Bytes)
deriving DecidableEq

def run : Command → Jsonv → Answer × Jsonv
  | .feed s, v => (.verdict (jsonvFeed s v).1, (jsonvFeed s v).2)
  | .trial scratch s, v =>
      let tried := jsonvTrial s ⟨v, scratch⟩
      (.verdict tried.1, tried.2.v)
  | .enterTrial scratch s, v =>
      let tried := jsonvTrial s ⟨v, scratch⟩
      (.verdict tried.1, tried.2.scratch)
  | .close cap, v => (.closed (jsonvClose cap v).1, (jsonvClose cap v).2)
  | .valueEnd, v => (.verdict (jsonvValueEnd v), v)
  | .isDone, v => (.verdict v.done, v)

theorem run_keeps (command : Command) : Keeps (run command) := by
  intro a b same
  cases command with
  | feed s =>
      have fed := jsonv_feed_keeps s a b same
      exact outcomes_map _ fed
  | trial scratch s =>
      have fed := jsonv_feed_keeps s _ _ (snapshot_alike scratch scratch same)
      exact ⟨congrArg Answer.verdict fed.1, same⟩
  | enterTrial scratch s =>
      have fed := jsonv_feed_keeps s _ _ (snapshot_alike scratch scratch same)
      exact outcomes_map _ fed
  | close cap =>
      have closed := jsonv_close_keeps cap a b same
      exact outcomes_map _ closed
  | valueEnd => exact ⟨congrArg Answer.verdict (value_end_same same), same⟩
  | isDone => exact ⟨congrArg Answer.verdict same.done, same⟩

/-- The states a validator can be in: started for an object or for any value, and fed. -/
inductive Reached : Jsonv → Prop
  | init (memory : Jsonv) : Reached (jsonvInit memory)
  | initAny (memory : Jsonv) : Reached (jsonvInitAny memory)
  | feed {v : Jsonv} (s : Bytes) : Reached v → Reached (jsonvFeed s v).2

theorem init_same (a b : Jsonv) : SameLive (jsonvInit a) (jsonvInit b) := by
  constructor
  · exact Nat.zero_le _
  · intro i low
    cases low
  all_goals rfl

theorem init_any_same (a b : Jsonv) : SameLive (jsonvInitAny a) (jsonvInitAny b) := by
  have started := init_same a b
  constructor
  · exact started.fits
  · exact started.stack
  all_goals rfl

theorem reached_live {v : Jsonv} (reached : Reached v) : SameLive v v := by
  induction reached with
  | init memory => exact init_same memory memory
  | initAny memory => exact init_any_same memory memory
  | feed s reached ih => exact (jsonv_feed_keeps s _ _ ih).2

/-- A trial of a reached state: the verdict of a full copy, the state as it was, and a
scratch that nothing tells from the full copy any more. -/
theorem jsonv_trial_full_copy {v : Jsonv} (reached : Reached v) (scratch : Jsonv) (s : Bytes) :
    (jsonvTrial s ⟨v, scratch⟩).1 = (jsonvFeed s v).1 ∧ (jsonvTrial s ⟨v, scratch⟩).2.v = v ∧
      ∀ commands, answers run commands (jsonvTrial s ⟨v, scratch⟩).2.scratch =
        answers run commands (jsonvFeed s v).2 := by
  have same := jsonv_feed_keeps s _ _ (snapshot_same scratch (reached_live reached))
  refine ⟨same.1.symm, rfl, ?_⟩
  intro commands
  exact (answers_agree run_keeps commands same.2).symm

end GridcoreRunner.Json.InPlace
