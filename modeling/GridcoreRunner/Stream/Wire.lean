import GridcoreRunner.Stream.Groups

/-!
# The wire

What a write does to the socket, and how a routine of several writes ends: it kept
its promise, or the client was lost in it and nothing was written afterwards.
-/

namespace GridcoreRunner.Stream

set_option autoImplicit false

open GridcoreRunner.Json

section Wire

variable (accepts : Nat → Bool)

/-- The client is there and has taken every write. -/
structure Here (g : GenCtx) : Prop where
  alive : g.dead = false
  taken : ∀ n < g.wire.length, accepts n = true

/-- The client is gone; no write but the last can have failed. -/
structure Gone (g : GenCtx) : Prop where
  dead : g.dead = true
  taken : ∀ n, n + 1 < g.wire.length → accepts n = true

end Wire

theorem Here.hangup {accepts : Nat → Bool} {g : GenCtx} (here : Here accepts g) :
    Gone accepts { g with dead := true } :=
  ⟨rfl, fun n below => here.taken n (Nat.lt_of_succ_lt below)⟩

/-- How a routine ends. -/
def Good (lost kept : GenCtx → Prop) (answer : Answer) : Prop :=
  if answer.rc then lost answer.g else kept answer.g

theorem good_zero {lost kept : GenCtx → Prop} {g : GenCtx} (done : kept g) :
    Good lost kept ⟨g, false⟩ := done

theorem good_or {lost kept : GenCtx → Prop} {answer : Answer} (good : Good lost kept answer) :
    lost answer.g ∨ kept answer.g := by
  unfold Good at good
  split_ifs at good
  · exact Or.inl good
  · exact Or.inr good

theorem good_next {lost kept : GenCtx → Prop} (between : GenCtx → Prop) {answer : Answer}
    {rest : GenCtx → Answer} (first : Good lost between answer) (second : ∀ g, between g → Good lost kept (rest g)) :
    Good lost kept (answer.next rest) := by
  unfold Good at first
  cases failed : answer.rc with
  | false =>
      rw [failed] at first
      rw [Answer.next, failed]
      exact second answer.g first
  | true =>
      rw [failed] at first
      rw [Answer.next, failed]
      unfold Good
      rw [if_pos rfl, failed]
      exact first

theorem good_mono {lost more kept also : GenCtx → Prop} {answer : Answer}
    (good : Good lost kept answer) (losing : ∀ g, lost g → more g) (keeping : ∀ g, kept g → also g) :
    Good more also answer := by
  unfold Good at good ⊢
  split_ifs at good ⊢
  · exact losing _ good
  · exact keeping _ good

/-- What a routine changes behind its last write. -/
theorem good_after {lost kept : GenCtx → Prop} (between : GenCtx → Prop) {answer : Answer}
    (change : GenCtx → GenCtx) (good : Good lost between answer) (losing : ∀ g, lost g → lost (change g))
    (keeping : ∀ g, between g → kept (change g)) :
    Good lost kept ⟨change answer.g, answer.rc⟩ := by
  unfold Good at good ⊢
  split_ifs at good ⊢
  · exact losing _ good
  · exact keeping _ good

/-- What a routine changes only when it succeeded. -/
theorem good_unless {lost kept : GenCtx → Prop} (between : GenCtx → Prop) {answer : Answer}
    (change : GenCtx → GenCtx) (good : Good lost between answer)
    (keeping : ∀ g, between g → kept (change g)) :
    Good lost kept (if answer.rc then answer else ⟨change answer.g, false⟩) := by
  unfold Good at good
  cases failed : answer.rc with
  | true =>
      rw [failed] at good
      unfold Good
      rw [if_pos rfl, failed]
      exact good
  | false =>
      rw [failed] at good
      exact keeping _ good

/-- One write. -/
theorem send_frame_good {accepts : Nat → Bool} {g : GenCtx} (here : Here accepts g) {frame : Frame}
    {lost kept : GenCtx → Prop}
    (losing : Gone accepts { g with wire := g.wire ++ [frame], dead := true } →
      lost { g with wire := g.wire ++ [frame], dead := true })
    (keeping : Here accepts { g with wire := g.wire ++ [frame], dead := false } →
      kept { g with wire := g.wire ++ [frame], dead := false }) :
    Good lost kept (sendFrame accepts frame g) := by
  rw [Good, sendFrame]
  simp only [here.alive, Bool.false_or]
  cases taken : accepts g.wire.length with
  | true =>
      rw [if_neg (by simp)]
      apply keeping
      constructor
      · rfl
      · intro n below
        rw [List.length_append, List.length_singleton] at below
        rcases Nat.lt_or_ge n g.wire.length with earlier | last
        · exact here.taken n earlier
        · have same : n = g.wire.length := by omega
          rw [same]
          exact taken
  | false =>
      rw [if_pos (by simp)]
      apply losing
      constructor
      · rfl
      · intro n below
        rw [List.length_append, List.length_singleton] at below
        exact here.taken n (by omega)

/-! ## Texts -/

/-- The text of a delta, with its channel. -/
def frameText : Frame → Option (Kind × Bytes)
  | .typed _ (.delta kind _ _ text) => some (kind, text)
  | .plain (.blockDelta _ kind text) => some (kind, text)
  | .chunk (.delta _ reasoning text) => some (channelKind reasoning, text)
  | .chunk (.completion text) => some (.message, text)
  | .chunk (.callArgs _ text) => some (.functionCall, text)
  | _ => none

def texts (wire : List Frame) : List (Kind × Bytes) := wire.filterMap frameText

/-- What is written of what is said. -/
def Said.told : Said → Option (Kind × Bytes)
  | .text reasoning piece => some (channelKind reasoning, sbEsc piece)
  | .callArgs piece => some (.functionCall, sbEsc piece)
  | _ => none

theorem texts_append (wire more : List Frame) : texts (wire ++ more) = texts wire ++ texts more := by
  rw [texts, List.filterMap_append]
  rfl

/-- What a routine leaves alone, and the deltas it wrote. -/
structure Kept (g g' : GenCtx) (wrote : List (Kind × Bytes)) : Prop where
  api : g'.api = g.api
  pend : g'.pend = g.pend
  pendReason : g'.pendReason = g.pendReason
  deltas : texts g'.wire = texts g.wire ++ wrote

theorem Kept.refl (g : GenCtx) : Kept g g [] := ⟨rfl, rfl, rfl, (List.append_nil _).symm⟩

theorem Kept.trans {g g' g'' : GenCtx} {wrote more : List (Kind × Bytes)} (first : Kept g g' wrote)
    (second : Kept g' g'' more) : Kept g g'' (wrote ++ more) :=
  ⟨second.api.trans first.api, second.pend.trans first.pend,
    second.pendReason.trans first.pendReason,
    by rw [second.deltas, first.deltas, List.append_assoc]⟩

end GridcoreRunner.Stream
