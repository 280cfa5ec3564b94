import GridcoreRunner.Completion.StopFilter

/-!
# An unconstrained turn

The tokens go through the splitter and the filter until a stop string ends the
generation; then both are flushed. A stop string found in the middle of a turn
leaves bytes in the splitter, and the flush still hands them on.
-/

namespace GridcoreRunner.Completion

set_option autoImplicit false

open GridcoreRunner.Generation GridcoreRunner.Text

/-- What a turn is served with: the tags, whether the prompt opened the thinking
block, the stop strings and whether the client streams. -/
structure Turn where
  tags : Option Tags
  start : Section
  stops : Stops
  stream : Bool

namespace Turn

def sink (t : Turn) : Ctx → Bool → Bytes → Ctx × Bool := genEmit t.stops.strs false

/-- The generation: tokens until one stops it. -/
def looped (t : Turn) (tokens : List Bytes) : Fed Ctx :=
  feedTokens t.tags t.sink ⟨t.start, []⟩ (Ctx.init t.stream) tokens

/-- The end of `run_completion`: `think_finish`, the withheld tail of a turn that
was not stopped, and the deltas that still wait. -/
def finish (t : Turn) (fed : Fed Ctx) : Ctx :=
  let g := (thinkFinish t.tags t.sink fed.split fed.sink).1
  let g := if !g.stopped && !g.hold.isEmpty then { (emitChannel g false g.hold).1 with hold := [] }
    else g
  flushTextDelta g

def final (t : Turn) (tokens : List Bytes) : Ctx := t.finish (t.looped tokens)

/-- The visible channel of the stream. -/
def shown (t : Turn) (stream : Bytes) : Bytes := visible t.tags t.start stream

/-- What is asked of one way to cut the stream. -/
structure Kept (t : Turn) (tokens : List Bytes) : Prop where
  whole : (∀ s ∈ t.stops.strs, ¬ s <:+: t.shown tokens.flatten) →
    (t.final tokens).out = t.shown tokens.flatten ∧ (t.final tokens).stopHit = none
  cut : (∃ s ∈ t.stops.strs, s <:+: t.shown tokens.flatten) →
    ∃ s ∈ t.stops.strs, ∃ back, t.shown tokens.flatten = (t.final tokens).out ++ s ++ back ∧
      (t.final tokens).stopHit = some s
  /-- Once a stop string was found nothing is delivered and it stays the one named. -/
  quiet : (t.looped tokens).abort = true →
    (t.final tokens).out = (t.looped tokens).sink.out ∧
      (t.final tokens).stopHit = (t.looped tokens).sink.stopHit
  streamed : t.stream = true → (t.final tokens).sent = (t.final tokens).out

/-- A cut delivers what it should, and what the uncut stream delivers. -/
structure Delivers (t : Turn) (tokens : List Bytes) : Prop where
  kept : t.Kept tokens
  uncut : t.Kept [tokens.flatten]
  same : (t.final tokens).out = (t.final [tokens.flatten]).out ∧
    (t.final tokens).stopHit = (t.final [tokens.flatten]).stopHit

/-- Everything the splitter emits in a turn that nothing stops. -/
def log (t : Turn) (tokens : List Bytes) : List (Bool × Bytes) :=
  (streamLog t.tags ⟨t.start, []⟩ tokens).1 ++
    finishLog t.tags (streamLog t.tags ⟨t.start, []⟩ tokens).2

/-- The bytes the splitter still holds are withheld whole, or begin with the stop
string that ended the turn. -/
def Harmless (stops : List Bytes) (hit : Option Bytes) (held : Bytes) : Prop :=
  match firstHit stops held with
  | some (at_, stop) => at_ = 0 ∧ hit = some stop
  | none => keepFor held stops = held.length

/-- Where a token's content completes a stop string, the splitter holds nothing
that its flush would show. -/
def HeldHarmless (t : Turn) (tokens : List Bytes) : Prop :=
  (t.looped tokens).abort = true →
    Harmless t.stops.strs (t.looped tokens).sink.stopHit
      (contents (finishLog t.tags (t.looped tokens).split))

/-- The stop string that is complete first under a cut is also the first one when
the stream comes in one piece. -/
def SameStop (t : Turn) (tokens : List Bytes) : Prop :=
  firstHit t.stops.strs (seenAtStop t.stops.strs [] (t.log tokens)) =
    firstHit t.stops.strs (seenAtStop t.stops.strs [] (t.log [tokens.flatten]))

structure Unharmed (t : Turn) (tokens : List Bytes) : Prop where
  held : t.HeldHarmless tokens
  heldUncut : t.HeldHarmless [tokens.flatten]
  sameStop : t.SameStop tokens

end Turn

/-! ## Streamed deltas -/

/-- The deltas sent and waiting are the content, while the client streams. -/
structure Streamed (streams : Bool) (g : Ctx) : Prop where
  on : g.stream = streams
  all : streams = true → g.sent ++ g.pend = g.out

theorem send_text_delta_joined (sent pend bytes : Bytes) :
    (sendTextDelta sent pend bytes).1 ++ (sendTextDelta sent pend bytes).2 =
      sent ++ pend ++ bytes := by
  unfold sendTextDelta
  split
  · next plain =>
    simp only [Bool.and_eq_true, List.isEmpty_iff] at plain
    simp [plain.1]
  · simp only
    rw [List.append_assoc, List.take_append_drop, List.append_assoc]

section
variable {streams : Bool} {g : Ctx}

theorem Streamed.emit (h : Streamed streams g) (reasoning : Bool) (bytes : Bytes) :
    Streamed streams (emitChannel g reasoning bytes).1 := by
  cases reasoning with
  | true => exact ⟨h.on, h.all⟩
  | false =>
      refine ⟨h.on, ?_⟩
      intro flag
      have on : g.stream = true := h.on.trans flag
      simp only [emitChannel, Bool.false_eq_true, if_false, on, if_true]
      rw [send_text_delta_joined, h.all flag]

theorem Streamed.stop_feed (h : Streamed streams g) (stops : List Bytes) (closing : Bool)
    (bytes : Bytes) : Streamed streams (stopFeed stops closing g bytes).1 := by
  unfold stopFeed
  split
  · exact h.emit false bytes
  · simp only
    split
    · next at_ stop _ =>
      have named : Streamed streams { g with stopHit := some stop } := ⟨h.on, h.all⟩
      have emitted := named.emit false ((g.hold ++ bytes).take at_)
      split
      · exact ⟨emitted.on, emitted.all⟩
      · exact ⟨h.on, h.all⟩
    · split
      · have emitted := h.emit false
          ((g.hold ++ bytes).take ((g.hold ++ bytes).length - keepFor (g.hold ++ bytes) stops))
        exact ⟨emitted.on, emitted.all⟩
      · exact ⟨h.on, h.all⟩

theorem Streamed.gen_emit (h : Streamed streams g) (stops : List Bytes) (closing : Bool)
    (reasoning : Bool) (bytes : Bytes) :
    Streamed streams (genEmit stops closing g reasoning bytes).1 := by
  unfold genEmit
  split
  · exact h.stop_feed stops closing bytes
  · exact h.emit reasoning bytes

theorem Streamed.run (h : Streamed streams g) (stops : List Bytes) (closing : Bool)
    (log : List (Bool × Bytes)) :
    Streamed streams (runUntil (genEmit stops closing) g log).1 := by
  induction log generalizing g with
  | nil => exact h
  | cons entry log induction =>
      obtain ⟨think, bytes⟩ := entry
      have fed := h.gen_emit stops closing think bytes
      simp only [runUntil]
      split
      · exact fed
      · exact induction fed

end

/-! ## How a turn ends -/

theorem seen_at_stop_append {stops : List Bytes} {seen : Bytes} (absent : firstHit stops seen = none)
    (front back : List (Bool × Bytes)) :
    seenAtStop stops seen (front ++ back) =
      if (firstHit stops (seenAtStop stops seen front)).isSome then seenAtStop stops seen front
      else seenAtStop stops (seenAtStop stops seen front) back := by
  induction front generalizing seen with
  | nil => simp [seenAtStop, absent]
  | cons entry front induction =>
      obtain ⟨think, bytes⟩ := entry
      cases think with
      | true =>
          simp only [List.cons_append, seenAtStop, if_true]
          exact induction absent
      | false =>
          simp only [List.cons_append, seenAtStop, Bool.false_eq_true, if_false]
          cases hit : firstHit stops (seen ++ bytes) with
          | some found => simp [hit]
          | none =>
              simp only [Option.isSome_none, Bool.false_eq_true, if_false]
              exact induction hit

namespace Turn

@[simp] theorem flush_text_out (g : Ctx) : (flushTextDelta g).out = g.out := rfl

@[simp] theorem flush_text_hit (g : Ctx) : (flushTextDelta g).stopHit = g.stopHit := rfl

theorem stops_listed (stops : Stops) : stops.strs.isEmpty = false := by
  simpa [List.isEmpty_eq_false_iff] using stops.some

/-- A content piece behind a stop: nothing shows exactly when it is harmless. -/
theorem stop_feed_stopped_iff {stops : List Bytes} {g : Ctx} (empty : g.hold = []) (held : Bytes) :
    (stopFeed stops false g held).1.stopped = (g.stopped || (firstHit stops held).isSome) ∧
      (((stopFeed stops false g held).1.out = g.out ∧
        (stopFeed stops false g held).1.stopHit = g.stopHit) ↔
          Harmless stops g.stopHit held) := by
  simp only [stopFeed, Harmless, empty, List.nil_append, Bool.false_eq_true, if_false]
  cases hit : firstHit stops held with
  | some found =>
      obtain ⟨at_, stop⟩ := found
      have inside := (first_hit_some hit).1
      simp only
      constructor
      · simp
      · by_cases first : at_ > 0
        · simp only [first, if_true, emit_content_out]
          constructor
          · intro same
            have length := congrArg List.length same.1
            rw [List.length_append, List.length_take] at length
            omega
          · intro harmless
            omega
        · simp only [first, if_false]
          constructor
          · intro same
            exact ⟨by omega, same.2.symm⟩
          · intro harmless
            exact ⟨trivial, harmless.2.symm⟩
  | none =>
      have kept := (keep_for_bound held stops).1
      simp only
      split
      · next some =>
        constructor
        · simp [emitChannel]
        · constructor
          · intro same
            have length := congrArg List.length same.1
            simp only [emit_content_out, List.length_append, List.length_take] at length
            omega
          · intro harmless
            omega
      · next none =>
        constructor
        · simp
        · constructor
          · intro _
            omega
          · intro _
            exact ⟨rfl, rfl⟩

/-- The flush behind a stop shows nothing exactly when what is held is harmless. -/
theorem finish_stopped_iff (t : Turn) {fed : Fed Ctx} (stopped : fed.sink.stopped = true)
    (empty : fed.sink.hold = []) :
    ((t.finish fed).out = fed.sink.out ∧ (t.finish fed).stopHit = fed.sink.stopHit) ↔
      Harmless t.stops.strs fed.sink.stopHit (contents (finishLog t.tags fed.split)) := by
  have nothing : Harmless t.stops.strs fed.sink.stopHit [] := by
    have kept := (keep_for_bound [] t.stops.strs).1
    simp only [Harmless, firstHit, List.length_nil] at kept ⊢
    omega
  simp only [finish, think_finish_log]
  unfold finishLog
  split
  · simp [runUntil, stopped, nothing]
  · cases think : (fed.split.state == .think) with
    | true => simp [sink, genEmit, emitChannel, stopped, contents_single, nothing]
    | false =>
        have piece := @stop_feed_stopped_iff t.stops.strs _ empty fed.split.buf
        simp only [run_until_single, sink, genEmit, stops_listed, Bool.not_false, Bool.and_self,
          if_true, piece.1, stopped, Bool.true_or, Bool.not_true, Bool.false_and,
          Bool.false_eq_true, if_false, flush_text_out, flush_text_hit, contents_single]
        exact piece.2

theorem log_visible (t : Turn) (tokens : List Bytes) :
    contents (t.log tokens) = t.shown tokens.flatten :=
  stream_log_visible t.tags t.start tokens

/-- The whole turn, by the content the filter had seen when a stop string was
complete. -/
theorem final_spec (t : Turn) (tokens : List Bytes) :
    let text := seenAtStop t.stops.strs [] (t.log tokens)
    text <+: t.shown tokens.flatten ∧
      match firstHit t.stops.strs text with
      | none => text = t.shown tokens.flatten ∧ (t.looped tokens).abort = false ∧
          (t.final tokens).out = t.shown tokens.flatten ∧ (t.final tokens).stopHit = none
      | some (at_, stop) =>
          ((t.looped tokens).abort = true →
            (t.looped tokens).sink.out = text.take at_ ∧
            (t.looped tokens).sink.stopHit = some stop ∧
            (((t.final tokens).out = (t.looped tokens).sink.out ∧
              (t.final tokens).stopHit = (t.looped tokens).sink.stopHit) ↔
                t.HeldHarmless tokens)) ∧
          ((t.looped tokens).abort = false →
            (t.final tokens).out = text.take at_ ∧ (t.final tokens).stopHit = some stop) := by
  intro text
  have absent : firstHit t.stops.strs [] = none := rfl
  obtain ⟨fed, left⟩ := feed_tokens_log t.tags t.sink ⟨t.start, []⟩ (Ctx.init t.stream) tokens
  have loop := run_filter t.stops (filtering_start t.stops.strs t.stream)
    (streamLog t.tags ⟨t.start, []⟩ tokens).1
  have split : text = _ := seen_at_stop_append absent
    (streamLog t.tags ⟨t.start, []⟩ tokens).1
    (finishLog t.tags (streamLog t.tags ⟨t.start, []⟩ tokens).2)
  have visible := t.log_visible tokens
  rw [log, contents_append] at visible
  simp only [List.nil_append] at loop
  generalize (streamLog t.tags ⟨t.start, []⟩ tokens).1 = front at loop split visible fed
  have sink : (t.looped tokens).sink =
      (runUntil (genEmit t.stops.strs false) (Ctx.init t.stream) front).1 := congrArg Prod.fst fed
  have abort : (t.looped tokens).abort =
      (runUntil (genEmit t.stops.strs false) (Ctx.init t.stream) front).2 := congrArg Prod.snd fed
  cases hit : firstHit t.stops.strs (seenAtStop t.stops.strs [] front) with
  | some found =>
      obtain ⟨at_, stop⟩ := found
      simp only [hit] at loop
      obtain ⟨aborted, stopped, empty, out, named, within⟩ := loop
      rw [hit, Option.isSome_some, if_pos rfl] at split
      rw [split, hit]
      constructor
      · rw [← visible]
        exact within.trans (List.prefix_append _ _)
      · constructor
        · intro _
          have finished := @Turn.finish_stopped_iff t (t.looped tokens) (by rw [sink]; exact stopped)
            (by rw [sink]; exact empty)
          refine ⟨by rw [sink]; exact out, by rw [sink]; exact named, finished.trans ?_⟩
          constructor
          · intro harmless _
            exact harmless
          · intro harmless
            exact harmless (abort.trans aborted)
        · intro running
          rw [abort] at running
          have := aborted.symm.trans running
          simp at this
  | none =>
      simp only [hit] at loop
      obtain ⟨running, all, filtering⟩ := loop
      rw [hit, Option.isSome_none, if_neg (by simp)] at split
      have quiet : (t.looped tokens).abort = false := abort.trans running
      have rest := left quiet
      have back := run_filter t.stops filtering
        (finishLog t.tags (streamLog t.tags ⟨t.start, []⟩ tokens).2)
      rw [← split] at back
      have final_eq : t.final tokens = flushTextDelta
          (let g := (runUntil t.sink (t.looped tokens).sink
            (finishLog t.tags (streamLog t.tags ⟨t.start, []⟩ tokens).2)).1
          if !g.stopped && !g.hold.isEmpty then
            { (emitChannel g false g.hold).1 with hold := [] }
          else g) := by
        rw [final, finish, think_finish_log, ← rest]
        rfl
      rw [← sink] at back
      cases later : firstHit t.stops.strs text with
      | some found =>
          obtain ⟨at_, stop⟩ := found
          simp only [later] at back
          obtain ⟨-, stopped, -, out, named, within⟩ := back
          rw [all, visible] at within
          apply And.intro within
          constructor
          · intro aborted
            rw [quiet] at aborted
            simp at aborted
          · intro _
            rw [final_eq]
            simp only [Turn.sink, stopped, Bool.not_true, Bool.false_and, Bool.false_eq_true,
              if_false, flush_text_out, flush_text_hit]
            exact ⟨out, named⟩
      | none =>
          simp only [later] at back
          obtain ⟨-, whole, last⟩ := back
          rw [all, visible] at whole
          rw [whole]
          refine ⟨List.prefix_refl _, rfl, quiet, ?_⟩
          rw [final_eq]
          have out := last.seen_eq
          rw [whole] at out
          simp only [Turn.sink, last.running, Bool.not_false, Bool.true_and]
          split
          · simp only [flush_text_out, flush_text_hit, emit_content_out]
            exact ⟨out.symm, last.noHit⟩
          · next none =>
            have empty := List.isEmpty_iff.mp (by simpa using none)
            rw [empty, List.append_nil] at out
            simp only [flush_text_out, flush_text_hit]
            exact ⟨out.symm, last.noHit⟩

/-! ## The contract of a turn -/

theorem final_streamed (t : Turn) (tokens : List Bytes) (streams : t.stream = true) :
    (t.final tokens).sent = (t.final tokens).out := by
  have started : Streamed t.stream (Ctx.init t.stream) := ⟨rfl, fun _ => rfl⟩
  obtain ⟨fed, -⟩ := feed_tokens_log t.tags t.sink ⟨t.start, []⟩ (Ctx.init t.stream) tokens
  have sink : (t.looped tokens).sink = (runUntil (genEmit t.stops.strs false) (Ctx.init t.stream)
    (streamLog t.tags ⟨t.start, []⟩ tokens).1).1 := congrArg Prod.fst fed
  have looped : Streamed t.stream (t.looped tokens).sink := by
    rw [sink]
    exact started.run _ _ _
  have finished := looped.run t.stops.strs false (finishLog t.tags (t.looped tokens).split)
  simp only [final, finish, think_finish_log, flushTextDelta]
  unfold Turn.sink
  generalize (runUntil (genEmit t.stops.strs false) (t.looped tokens).sink
    (finishLog t.tags (t.looped tokens).split)).1 = g at finished
  split
  · exact (finished.emit false g.hold).all streams
  · exact finished.all streams

/-- One cut is served right exactly when its stop leaves nothing to show. -/
theorem kept_iff (t : Turn) (tokens : List Bytes) : t.Kept tokens ↔ t.HeldHarmless tokens := by
  have spec := t.final_spec tokens
  simp only at spec
  obtain ⟨within, spec⟩ := spec
  generalize seenAtStop t.stops.strs [] (t.log tokens) = text at within spec
  cases hit : firstHit t.stops.strs text with
  | none =>
      simp only [hit] at spec
      obtain ⟨all, running, out, named⟩ := spec
      have clean := (first_hit_none_iff t.stops.nonempty).mp hit
      rw [all] at clean
      constructor
      · intro _ aborted
        rw [running] at aborted
        simp at aborted
      · intro _
        refine ⟨fun _ => ⟨out, named⟩, ?_, ?_, t.final_streamed tokens⟩
        · rintro ⟨s, member, stands⟩
          exact absurd stands (clean s member)
        · intro aborted
          rw [running] at aborted
          simp at aborted
  | some found =>
      obtain ⟨at_, stop⟩ := found
      simp only [hit] at spec
      obtain ⟨stopped, ended⟩ := spec
      obtain ⟨member, back, cut⟩ := first_hit_split hit
      obtain ⟨more, whole⟩ := within
      have stands : stop <:+: t.shown tokens.flatten := by
        rw [← whole, cut]
        exact ⟨text.take at_, back ++ more, by simp⟩
      constructor
      · intro kept aborted
        exact (stopped aborted).2.2.mp (kept.quiet aborted) aborted
      · intro harmless
        have answer : (t.final tokens).out = text.take at_ ∧
            (t.final tokens).stopHit = some stop := by
          cases aborted : (t.looped tokens).abort with
          | true =>
              obtain ⟨out, named, same⟩ := stopped aborted
              have quiet := same.mpr harmless
              exact ⟨quiet.1.trans out, quiet.2.trans named⟩
          | false => exact ended aborted
        refine ⟨?_, ?_, fun aborted => (stopped aborted).2.2.mpr harmless, t.final_streamed tokens⟩
        · intro clean
          exact absurd stands (clean stop member)
        · intro _
          refine ⟨stop, member, back ++ more, ?_, answer.2⟩
          rw [answer.1, ← List.append_assoc, ← cut, whole]

/-- The content and the stop string a cut that is served right delivers. -/
theorem kept_answer {t : Turn} {tokens : List Bytes} (kept : t.Kept tokens) :
    match firstHit t.stops.strs (seenAtStop t.stops.strs [] (t.log tokens)) with
    | none => (t.final tokens).out = t.shown tokens.flatten ∧ (t.final tokens).stopHit = none
    | some (at_, stop) => at_ < (t.shown tokens.flatten).length ∧
        (t.final tokens).out = (t.shown tokens.flatten).take at_ ∧
        (t.final tokens).stopHit = some stop := by
  have spec := t.final_spec tokens
  have harmless := (t.kept_iff tokens).mp kept
  simp only at spec
  obtain ⟨within, spec⟩ := spec
  generalize seenAtStop t.stops.strs [] (t.log tokens) = text at within spec ⊢
  cases hit : firstHit t.stops.strs text with
  | none =>
      simp only [hit] at spec ⊢
      exact spec.2.2
  | some found =>
      obtain ⟨at_, stop⟩ := found
      simp only [hit] at spec ⊢
      have inside := (first_hit_some hit).1
      obtain ⟨more, whole⟩ := within
      have taken : text.take at_ = (t.shown tokens.flatten).take at_ := by
        rw [← whole, List.take_append_of_le_length (by omega)]
      have longer : at_ < (t.shown tokens.flatten).length := by
        rw [← whole, List.length_append]
        omega
      rw [← taken]
      apply And.intro longer
      cases aborted : (t.looped tokens).abort with
      | true =>
          obtain ⟨out, named, same⟩ := spec.1 aborted
          have quiet := same.mpr harmless
          exact ⟨quiet.1.trans out, quiet.2.trans named⟩
      | false => exact spec.2 aborted

/-- A cut of the stream delivers what it should, and what the uncut stream
delivers, exactly when neither stop leaves anything to show and both find the same
one. -/
theorem delivers_iff (t : Turn) (tokens : List Bytes) : t.Delivers tokens ↔ t.Unharmed tokens := by
  have flat : [tokens.flatten].flatten = tokens.flatten := by simp
  constructor
  · intro delivers
    refine ⟨(t.kept_iff _).mp delivers.kept, (t.kept_iff _).mp delivers.uncut, ?_⟩
    have left := kept_answer delivers.kept
    have right := kept_answer delivers.uncut
    obtain ⟨out, named⟩ := delivers.same
    unfold SameStop
    rw [flat] at right
    rw [out, named] at left
    cases cut : firstHit t.stops.strs (seenAtStop t.stops.strs [] (t.log tokens)) with
    | none =>
        cases uncut : firstHit t.stops.strs
            (seenAtStop t.stops.strs [] (t.log [tokens.flatten])) with
        | none => rfl
        | some found =>
            simp only [cut] at left
            simp only [uncut, left.2] at right
            simp at right
    | some found =>
        cases uncut : firstHit t.stops.strs
            (seenAtStop t.stops.strs [] (t.log [tokens.flatten])) with
        | none =>
            simp only [uncut] at right
            simp only [cut, right.2] at left
            simp at left
        | some other =>
            simp only [cut] at left
            simp only [uncut, left.2] at right
            have lengths := congrArg List.length right.2.1
            rw [List.length_take, List.length_take] at lengths
            have stops := Option.some.inj right.2.2
            have places : found.1 = other.1 := by
              have := left.1
              have := right.1
              omega
            exact congrArg some (Prod.ext places stops)
  · intro unharmed
    have kept := (t.kept_iff tokens).mpr unharmed.held
    have uncut := (t.kept_iff [tokens.flatten]).mpr unharmed.heldUncut
    refine ⟨kept, uncut, ?_⟩
    have left := kept_answer kept
    have right := kept_answer uncut
    rw [← unharmed.sameStop, flat] at right
    cases hit : firstHit t.stops.strs (seenAtStop t.stops.strs [] (t.log tokens)) with
    | none =>
        simp only [hit] at left right
        exact ⟨left.1.trans right.1.symm, left.2.trans right.2.symm⟩
    | some found =>
        simp only [hit] at left right
        exact ⟨left.2.1.trans right.2.1.symm, left.2.2.trans right.2.2.symm⟩

/-! ## Two turns that go wrong -/

section Leaks

/-- `<think>` and `</think>`, the stop string `X`, a streaming client. -/
def thinkingTurn : Turn where
  tags := some { opens := [60, 116, 104, 105, 110, 107, 62]
                 close := [60, 47, 116, 104, 105, 110, 107, 62]
                 opens_ne := by simp
                 close_ne := by simp }
  start := .content
  stops := { strs := [[88]], some := by simp, nonempty := by simp }
  stream := true

/-- No tags, the stop strings `abc` and `b`. -/
def plainTurn : Turn where
  tags := none
  start := .content
  stops := { strs := [[97, 98, 99], [98]], some := by simp, nonempty := by simp }
  stream := true

/-- The token `abXcdefghijk` delivers `abfghijk`: the six bytes the splitter held
go out behind the stop. -/
theorem held_bytes_leak :
    ¬ thinkingTurn.Delivers [[97, 98, 88, 99, 100, 101, 102, 103, 104, 105, 106, 107]] := by
  intro delivers
  have quiet := (delivers.kept.quiet (by decide)).1
  revert quiet
  decide

/-- Cut into `ab` and `c`, the stream stops at `b`; uncut it stops at `abc`. -/
theorem stop_depends_on_cut : ¬ plainTurn.Delivers [[97, 98], [99]] := by
  intro delivers
  have same := delivers.same.1
  revert same
  decide

theorem turns_not_delivered :
    ¬ thinkingTurn.Delivers [[97, 98, 88, 99, 100, 101, 102, 103, 104, 105, 106, 107]] ∧
      ¬ plainTurn.Delivers [[97, 98], [99]] :=
  ⟨held_bytes_leak, stop_depends_on_cut⟩

end Leaks

end Turn

end GridcoreRunner.Completion
