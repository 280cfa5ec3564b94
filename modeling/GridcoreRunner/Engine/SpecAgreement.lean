import GridcoreRunner.Engine.Line
import GridcoreRunner.Engine.Fork
import GridcoreRunner.Engine.Prelude

/-!
# Speculative decoding against plain decoding

The two loops treat every token alike but one: where the callback aborts on the
very token that spends the last of the prelude budget, the step loop ends and the
speculative loop still closes the prelude and forgets the abort. The theorem says
exactly when that shows.
-/

namespace GridcoreRunner.Generation

set_option autoImplicit false

open GridcoreRunner.Causal

variable {V σ κ Row Fold Logits : Type*}
variable {w : Weights Nat Row Fold Logits} {c : Config V σ κ Logits}

/-! ## Callback calls -/

theorem emit_calls (g : Gen V σ κ) (bytes : Bytes) :
    (emit c g bytes).1.calls = g.calls ++ [(g.closing, bytes)] := by
  simp only [emit, constraintTruncate, constraintPayloadReset]
  split
  · rfl
  · split
    · rfl
    · split <;> rfl

/-- The tail `constraint_close` delivers. -/
def closingCalls (c : Config V σ κ Logits) (phase : Phase) (pv : V) : List (Bool × Bytes) :=
  let pv := if c.constrained && phase != .output then c.payload.init else pv
  if c.constrained && !c.payload.done pv then
    let tail := c.payload.close pv (closeCap c)
    if tail.isEmpty then [] else [(true, tail)]
  else []

theorem close_calls (g : Gen V σ κ) :
    (constraintClose c g).calls = g.calls ++ closingCalls c g.phase g.pv := by
  have closed : ∀ g : Gen V σ κ, g.closing = true →
      ({ cdocRelease (if c.constrained && !c.payload.done g.pv then
          let tail := c.payload.close g.pv (closeCap c)
          if tail.isEmpty then g else (emit c g tail).1
        else g) with closing := false } : Gen V σ κ).calls =
      g.calls ++ if c.constrained && !c.payload.done g.pv then
          let tail := c.payload.close g.pv (closeCap c)
          if tail.isEmpty then [] else [(true, tail)]
        else [] := by
    intro g closing
    simp only [cdocRelease]
    split_ifs
    · simp
    · rw [emit_calls, closing]
    · simp
  simp only [constraintClose, closingCalls]
  by_cases inside : (c.constrained && g.phase != .output) = true
  · simp only [inside, if_true]
    exact closed { constraintPayloadReset c { g with closing := true } with phase := .output } rfl
  · simp only [inside, Bool.false_eq_true, if_false]
    exact closed { g with closing := true } rfl

theorem closing_calls_done {g : Gen V σ κ} (done : constraintDone c g = true) :
    closingCalls c g.phase g.pv = [] := by
  simp only [constraintDone, Bool.and_eq_true, beq_iff_eq] at done
  simp [closingCalls, done.1, done.2]

/-- Away from the payload the closing tail is that of a fresh validator. -/
theorem closing_calls_prelude {phase : Phase} (pv : V) (constrained : c.constrained = true)
    (inside : phase ≠ .output) : closingCalls c phase pv = closingCalls c .output c.payload.init := by
  simp [closingCalls, constrained, inside]

theorem sample_token_frame {g gen : Gen V σ κ} {logits : Logits}
    (ended : sampleToken c g logits = .ended gen) :
    gen.calls = g.calls ∧ gen.phase = g.phase ∧ gen.pv = g.pv := by
  unfold sampleToken at ended
  split at ended
  · obtain rfl := Sampled.ended.inj ended
    exact ⟨rfl, rfl, rfl⟩
  · obtain rfl := Sampled.ended.inj ended
    exact ⟨rfl, rfl, rfl⟩
  · simp only at ended
    split at ended
    · obtain rfl := Sampled.ended.inj ended
      exact ⟨rfl, rfl, rfl⟩
    · simp at ended

/-- Whether `constraint_finish_think` calls the callback. -/
def finishThinkQuiet (c : Config V σ κ Logits) (g : Gen V σ κ) : Bool :=
  g.phase != .think || !c.emitThinkPrelude || c.thinkClose.isNone

/-- What closing the prelude leaves. -/
theorem finish_think_spec (c : Config V σ κ Logits) (g : Gen V σ κ) :
    let out := constraintFinishThink c g
    out.1.pv = c.payload.init ∧ out.1.phase = (if g.phase = .think then .afterThink else .output) ∧
      (finishThinkQuiet c g = true → out.1.calls = g.calls ∧ out.2 = false) ∧
      (finishThinkQuiet c g = false → out.1.calls.length = g.calls.length + 1) := by
  simp only [constraintFinishThink, finishThinkQuiet, constraintPayloadReset]
  by_cases think : g.phase = .think
  · simp only [think, beq_self_eq_true, if_true]
    cases emits : c.emitThinkPrelude with
    | false => simp
    | true =>
        cases tag : c.thinkClose with
        | none => simp
        | some close => simp [emit_calls]
  · simp [think]

/-! ## The step that differs -/

/-- The callback aborts on the token that spends the last of the prelude budget. -/
def budgetAbort (c : Config V σ κ Logits) (g : Gen V σ κ) (tok : Nat) : Bool :=
  (tokenCallbacks c g tok).2 &&
    preludeSpent (c.constrained && g.phase != .output) (tokenCallbacks c g tok).1

/-- The line ends before it counts another token. -/
def stopsHere (c : Config V σ κ Logits) (maxNew : Int) (room : Nat) (g : Gen V σ κ)
    (logits : Logits) (count : Nat) : Bool :=
  room == 0 || !budgetLeft maxNew count ||
    match sampleToken c g logits with
    | .ended _ => true
    | .token _ _ => false

/-- Such an abort does not show where closing the prelude delivers nothing and
nothing could follow it. -/
def budgetAbortHidden (w : Weights Nat Row Fold Logits) (c : Config V σ κ Logits) (maxNew : Int)
    (room : Nat) (line : List Nat) (g : Gen V σ κ) (tok count : Nat) : Bool :=
  let out := specToken c g tok
  finishThinkQuiet c (tokenCallbacks c g tok).1 &&
    (out.constrainedDone || stopsHere c maxNew room out.gen (coldHead w line tok) (count + 1))

/-- Every step of the plain line keeps to the tokens both loops treat alike. -/
def AbortsKept (w : Weights Nat Row Fold Logits) (c : Config V σ κ Logits) (maxNew : Int) :
    Nat → List Nat → Gen V σ κ → Logits → Nat → Prop
  | 0, _, _, _, _ => True
  | room + 1, line, g, logits, count =>
      if !budgetLeft maxNew count then True
      else
        match sampleToken c g logits with
        | .ended _ => True
        | .token g tok =>
            if budgetAbort c g tok then budgetAbortHidden w c maxNew room line g tok count = true
            else
              (genToken c g tok).2 = true →
                AbortsKept w c maxNew room (line ++ [tok]) (genToken c g tok).1
                  (coldHead w line tok) (count + 1)

theorem spec_line_count (maxNew : Int) (room : Nat) (line : List Nat) (g : Gen V σ κ)
    (logits : Logits) (count : Nat) : count ≤ (specLine w c maxNew room line g logits count).2 := by
  induction room generalizing line g logits count with
  | zero => exact Nat.le_refl _
  | succ room induction =>
      simp only [specLine]
      split
      · exact Nat.le_refl _
      · split
        · exact Nat.le_refl _
        · split
          · exact Nat.le_succ _
          · split
            · exact Nat.le_succ _
            · exact Nat.le_of_succ_le (induction _ _ _ _)

/-- A line that stops delivers the closing tail alone; another one counts. -/
theorem spec_line_stops (maxNew : Int) (room : Nat) (line : List Nat) (g : Gen V σ κ)
    (logits : Logits) (count : Nat) :
    (stopsHere c maxNew room g logits count = true →
      (specLine w c maxNew room line g logits count).1.calls =
        g.calls ++ closingCalls c g.phase g.pv ∧
      (specLine w c maxNew room line g logits count).2 = count) ∧
    (stopsHere c maxNew room g logits count = false →
      count < (specLine w c maxNew room line g logits count).2) := by
  cases room with
  | zero => simp [stopsHere, specLine, close_calls]
  | succ room =>
      simp only [stopsHere, specLine]
      by_cases budget : budgetLeft maxNew count = true
      · cases sampled : sampleToken c g logits with
        | ended gen =>
            obtain ⟨calls, phase, pv⟩ := sample_token_frame sampled
            simp [budget, close_calls, calls, phase, pv]
        | token gen tok =>
            simp only [budget, Bool.not_true, Bool.false_eq_true, if_false]
            constructor
            · simp
            · intro _
              split
              · exact Nat.lt_succ_self _
              · split
                · exact Nat.lt_succ_self _
                · exact spec_line_count _ _ _ _ _ _
      · simp [budget, close_calls]

/-- Where the callback did not abort, the two token steps agree. -/
theorem gen_token_of_quiet {g : Gen V σ κ} {tok : Nat} (quiet : (tokenCallbacks c g tok).2 = false) :
    genToken c g tok =
      if (specToken c g tok).rc then ((specToken c g tok).gen, false)
      else if (specToken c g tok).constrainedDone then
        ({ (specToken c g tok).gen with hitStop := true }, false)
      else ((specToken c g tok).gen, true) := by
  simp only [genToken, specToken, quiet, Bool.false_eq_true, if_false]

theorem gen_token_of_abort {g : Gen V σ κ} {tok : Nat} (abort : (tokenCallbacks c g tok).2 = true) :
    genToken c g tok = ((tokenCallbacks c g tok).1, false) := by
  simp only [genToken, abort, if_true]

/-- A plain line that stops on a token closes behind it. -/
theorem plain_stop_calls {g : Gen V σ κ} {tok : Nat} (quiet : (tokenCallbacks c g tok).2 = false)
    (done : (specToken c g tok).constrainedDone = true) :
    (constraintClose c (genToken c g tok).1).calls = (specToken c g tok).gen.calls := by
  have finished : constraintDone c (specToken c g tok).gen = true := by
    simp only [specToken, Bool.and_eq_true] at done
    exact done.2
  rw [gen_token_of_quiet quiet, done]
  split
  · rw [close_calls, closing_calls_done finished, List.append_nil]
  · have tail := closing_calls_done finished
    simp only [if_true]
    rw [close_calls]
    simp only
    rw [tail, List.append_nil]

@[simp] theorem prelude_tick_frame (inPrelude : Bool) (g : Gen V σ κ) :
    (preludeTick inPrelude g).calls = g.calls ∧ (preludeTick inPrelude g).phase = g.phase ∧
      (preludeTick inPrelude g).pv = g.pv := by
  unfold preludeTick
  split <;> exact ⟨rfl, rfl, rfl⟩

/-- An abort that leaves the prelude budget alone: both loops end, and the tails
are the same. -/
theorem abort_agrees {g : Gen V σ κ} {tok : Nat} (abort : (tokenCallbacks c g tok).2 = true)
    (unspent : budgetAbort c g tok = false) :
    (specToken c g tok).rc = true ∧
      (specToken c g tok).gen.calls = (tokenCallbacks c g tok).1.calls ∧
      (specToken c g tok).gen.phase = (tokenCallbacks c g tok).1.phase ∧
      (specToken c g tok).gen.pv = (tokenCallbacks c g tok).1.pv := by
  have spent : preludeSpent (c.constrained && g.phase != .output) (tokenCallbacks c g tok).1 =
      false := by
    simpa [budgetAbort, abort] using unspent
  simp only [specToken, spent, Bool.false_eq_true, if_false, abort]
  exact ⟨trivial, prelude_tick_frame _ _⟩

/-- The budget spent, the token closes the prelude. -/
theorem spec_token_spent {g : Gen V σ κ} {tok : Nat}
    (spent : preludeSpent (c.constrained && g.phase != .output) (tokenCallbacks c g tok).1 = true) :
    ∃ ticked : Gen V σ κ, ticked.calls = (tokenCallbacks c g tok).1.calls ∧
      ticked.phase = (tokenCallbacks c g tok).1.phase ∧
      specToken c g tok = ⟨(constraintFinishThink c ticked).1, (constraintFinishThink c ticked).2,
        c.constrained && constraintDone c (constraintFinishThink c ticked).1⟩ := by
  have tick := prelude_tick_frame (c.constrained && g.phase != .output) (tokenCallbacks c g tok).1
  refine ⟨{ preludeTick (c.constrained && g.phase != .output) (tokenCallbacks c g tok).1 with
    preludeExhausted := true }, tick.1, tick.2.1, ?_⟩
  simp only [specToken, spent, if_true]

/-- An abort that spends the budget: the speculative step closes the prelude. -/
theorem budget_abort_spec {g : Gen V σ κ} {tok : Nat} (abort : budgetAbort c g tok = true) :
    c.constrained = true ∧ (tokenCallbacks c g tok).2 = true ∧
      (tokenCallbacks c g tok).1.phase ≠ .output ∧
      (specToken c g tok).gen.pv = c.payload.init ∧
      (specToken c g tok).constrainedDone = constraintDone c (specToken c g tok).gen ∧
      (finishThinkQuiet c (tokenCallbacks c g tok).1 = true →
        (specToken c g tok).gen.calls = (tokenCallbacks c g tok).1.calls ∧
        (specToken c g tok).rc = false) ∧
      (finishThinkQuiet c (tokenCallbacks c g tok).1 = false →
        (specToken c g tok).gen.calls.length = (tokenCallbacks c g tok).1.calls.length + 1 ∧
        (specToken c g tok).gen.phase = .afterThink) := by
  simp only [budgetAbort, Bool.and_eq_true] at abort
  obtain ⟨aborted, spent⟩ := abort
  have constrained : c.constrained = true := by
    simp only [preludeSpent, Bool.and_eq_true] at spent
    exact spent.1.1.1.1
  have inside : (tokenCallbacks c g tok).1.phase ≠ .output := by
    simp only [preludeSpent, Bool.and_eq_true, Bool.or_eq_true, beq_iff_eq] at spent
    rcases spent.1.1.2 with phase | phase <;> simp [phase]
  obtain ⟨ticked, calls, phase, token⟩ := spec_token_spent spent
  obtain ⟨pv, after, quiet, loud⟩ := finish_think_spec c ticked
  simp only [finishThinkQuiet, calls, phase] at quiet loud after ⊢
  rw [token]
  refine ⟨constrained, aborted, inside, pv, by simp [constrained], quiet, ?_⟩
  intro speaks
  refine ⟨loud speaks, ?_⟩
  rw [after, if_pos]
  simp only [Bool.or_eq_false_iff, bne_eq_false_iff_eq] at speaks
  exact speaks.1.1

/-- The tail both loops deliver behind such an abort: that of a fresh validator. -/
theorem budget_abort_tail {g : Gen V σ κ} {tok : Nat} (abort : budgetAbort c g tok = true) :
    closingCalls c (tokenCallbacks c g tok).1.phase (tokenCallbacks c g tok).1.pv =
      closingCalls c (specToken c g tok).gen.phase (specToken c g tok).gen.pv := by
  obtain ⟨constrained, -, inside, pv, -, -, -⟩ := budget_abort_spec abort
  rw [closing_calls_prelude _ constrained inside, pv]
  by_cases output : (specToken c g tok).gen.phase = .output
  · rw [output]
  · rw [closing_calls_prelude _ constrained output]

/-! ## Agreement -/

/-- What a client can tell apart. -/
def SameDelivery (plain spec : Gen V σ κ × Nat) : Prop :=
  spec.1.calls = plain.1.calls ∧ spec.2 = plain.2

/-- The step behind a budget abort. -/
theorem budget_abort_agrees_iff (maxNew : Int) (room : Nat) (line : List Nat) {g : Gen V σ κ}
    {tok : Nat} (count : Nat) (abort : budgetAbort c g tok = true) :
    SameDelivery (constraintClose c (tokenCallbacks c g tok).1, count + 1)
        (if (specToken c g tok).constrainedDone then
          ({ (specToken c g tok).gen with hitStop := true }, count + 1)
        else if (specToken c g tok).rc then (constraintClose c (specToken c g tok).gen, count + 1)
        else specLine w c maxNew room (line ++ [tok]) (specToken c g tok).gen
          (coldHead w line tok) (count + 1)) ↔
      budgetAbortHidden w c maxNew room line g tok count = true := by
  obtain ⟨-, -, -, -, done, quiet, loud⟩ := budget_abort_spec abort
  have tail := budget_abort_tail abort
  have stops := spec_line_stops (w := w) maxNew room (line ++ [tok]) (specToken c g tok).gen
    (coldHead w line tok) (count + 1) (c := c)
  have finished : (specToken c g tok).constrainedDone = true →
      closingCalls c (tokenCallbacks c g tok).1.phase (tokenCallbacks c g tok).1.pv = [] := by
    intro ended
    rw [tail]
    exact closing_calls_done (done ▸ ended)
  cases speaks : finishThinkQuiet c (tokenCallbacks c g tok).1 with
  | true =>
      obtain ⟨calls, rc⟩ := quiet speaks
      simp only [budgetAbortHidden, speaks, rc, Bool.true_and, Bool.false_eq_true, if_false]
      cases ended : (specToken c g tok).constrainedDone with
      | true => simp [SameDelivery, close_calls, calls, finished ended]
      | false =>
          simp only [Bool.false_or, Bool.false_eq_true, if_false]
          cases stop : stopsHere c maxNew room (specToken c g tok).gen (coldHead w line tok)
            (count + 1) with
          | true => simp [SameDelivery, close_calls, stops.1 stop, calls, tail]
          | false =>
              have counted := stops.2 stop
              simp only [SameDelivery, Bool.false_eq_true, iff_false, not_and]
              omega
  | false =>
      obtain ⟨calls, phase⟩ := loud speaks
      have open_ : (specToken c g tok).constrainedDone = false := by
        rw [done]
        simp [constraintDone, phase]
      -- one callback call more, behind which the tails are the same
      have longer : (specToken c g tok).gen.calls ++
            closingCalls c (specToken c g tok).gen.phase (specToken c g tok).gen.pv ≠
          (tokenCallbacks c g tok).1.calls ++
            closingCalls c (tokenCallbacks c g tok).1.phase (tokenCallbacks c g tok).1.pv := by
        intro same
        have lengths := congrArg List.length same
        rw [List.length_append, List.length_append, calls, tail] at lengths
        omega
      simp only [budgetAbortHidden, speaks, open_, Bool.false_and, Bool.false_eq_true, if_false,
        iff_false]
      split
      · simp [SameDelivery, close_calls, longer]
      · cases stop : stopsHere c maxNew room (specToken c g tok).gen (coldHead w line tok)
          (count + 1) with
        | true => simp [SameDelivery, close_calls, stops.1 stop, longer]
        | false =>
            have counted := stops.2 stop
            simp only [SameDelivery, not_and]
            omega

/-- The two lines deliver the same exactly when every step keeps to the tokens
both treat alike. -/
theorem line_agrees_iff (maxNew : Int) (room : Nat) (line : List Nat) (g : Gen V σ κ)
    (logits : Logits) (count : Nat) :
    SameDelivery (plainLine w c maxNew room line g logits count)
        (specLine w c maxNew room line g logits count) ↔
      AbortsKept w c maxNew room line g logits count := by
  induction room generalizing line g logits count with
  | zero => simp [SameDelivery, plainLine, specLine, AbortsKept]
  | succ room induction =>
      simp only [plainLine, specLine, AbortsKept]
      split
      · simp [SameDelivery]
      · cases sampled : sampleToken c g logits with
        | ended gen => simp [SameDelivery]
        | token g tok =>
            simp only
            by_cases abort : budgetAbort c g tok = true
            · have aborted := (budget_abort_spec abort).2.1
              rw [if_pos abort, gen_token_of_abort aborted]
              exact budget_abort_agrees_iff maxNew room line count abort
            · rw [if_neg abort]
              cases aborted : (tokenCallbacks c g tok).2 with
              | true =>
                  obtain ⟨rc, calls, phase, pv⟩ := abort_agrees aborted (by simpa using abort)
                  rw [gen_token_of_abort aborted]
                  simp only [rc, if_true, Bool.false_eq_true, if_false, false_imp_iff, iff_true]
                  split
                  · next ended =>
                    have finished : constraintDone c (specToken c g tok).gen = true := by
                      simp only [specToken, Bool.and_eq_true] at ended
                      exact ended.2
                    have tail := closing_calls_done finished
                    rw [phase, pv] at tail
                    simp [SameDelivery, close_calls, calls, tail]
                  · simp [SameDelivery, close_calls, calls, phase, pv]
              | false =>
                  cases ended : (specToken c g tok).constrainedDone with
                  | true =>
                      have stopped : (genToken c g tok).2 = false := by
                        rw [gen_token_of_quiet aborted, ended]
                        split <;> rfl
                      simp [stopped, SameDelivery, plain_stop_calls aborted ended]
                  | false =>
                      rw [gen_token_of_quiet aborted, ended]
                      cases (specToken c g tok).rc with
                      | true => simp [SameDelivery]
                      | false =>
                          simp only [Bool.false_eq_true, if_false, if_true, forall_const]
                          exact induction _ _ _ _

/-- The same callback calls, the closing tail among them, and the same count. -/
def SameAnswer {Row Fold : Type*} (plain : Engine V σ κ Row Fold)
    (spec : Engine V σ κ Row Fold × Nat) : Prop :=
  spec.1.gen.calls = plain.gen.calls ∧ spec.2 = plain.genCount

/-- `engine_generate_spec` answers what the step loop answers exactly when no
callback aborts on the token that spends the prelude budget, or the abort cannot
show. -/
theorem speculative_agrees_iff {s : Setup V σ κ Row Fold Logits} {e : Engine V σ κ Row Fold}
    (h : Sound s e) (logits : Logits) (maxNew : Int) :
    SameAnswer (generatePlain s e logits maxNew) (generateSpec s e logits maxNew) ↔
      AbortsKept s.m.w s.c maxNew (s.m.nCtx - e.pos) e.tokens (engineGenBegin maxNew e).gen
        logits 0 := by
  have plain := generate_plain_line h logits maxNew
  have spec := generate_spec_line h logits maxNew
  have agree := line_agrees_iff (w := s.m.w) (c := s.c) maxNew (s.m.nCtx - e.pos) e.tokens
    (engineGenBegin maxNew e).gen logits 0
  rw [← agree, SameDelivery, ← plain]
  obtain ⟨gen, count⟩ := Prod.mk.inj spec
  rw [SameAnswer, gen, count]
  rfl

/-! ## An abort on the last token of the prelude -/

section LastPreludeToken

/-- `<`, `a`, `{` and `}`. -/
def thinkingLetters : List UInt8 := [60, 97, 123, 125]

/-- A `json_mode` request that thinks aloud. The sampler takes the first letter the
constraint lets it, `a` before a brace, and the callback aborts at its `abortAt`th
call. -/
def thinkingConfig (abortAt : Nat) : Config Json.Jsonv Unit Nat Unit where
  mode := .json
  payload := jsonMachine.payload
  thinkOpen := some [60]
  thinkClose := some [62]
  thinkEndId := none
  emitThinkPrelude := true
  constraintIncludesPrelude := false
  allowWs := false
  stopIds := []
  ignoreEos := false
  decode := fun tok => thinkingLetters[tok]?.toList
  isControl := fun _ => false
  raw := fun tok => thinkingLetters[tok]?.map fun c => [c]
  samplePick := fun smp _ ok =>
    match [1, 2, 3].find? ok with
    | some tok => (.token tok, smp)
    | none => (.noCandidate, smp)
  samplerAccept := fun smp _ => smp
  samplerReset := fun smp => smp
  callback := fun calls _ _ => (calls + 1, calls + 1 == abortAt, 0)

/-- The grammar pins the brace a document begins with. -/
def thinkingSetup (abortAt : Nat) :
    Setup Json.Jsonv Unit Nat (List Nat) (List Nat) Unit where
  m := { w := recorder, nCtx := 16, nBatch := 8, specBatch := 4, nVocab := 4, verifyOk := true }
  dm := none
  gramFf := true
  grammarDraft := fun g _ => if g.phase == .output && g.pv.stack.isEmpty then [2] else []
  c := thinkingConfig abortAt

/-- Behind the prompt `<`. -/
def thinkingEngine : Engine Json.Jsonv Unit Nat (List Nat) (List Nat) where
  pos := 1
  hist := fun _ => 0
  kv := forward recorder { rows := fun _ => [], fold := [], snap := none } 0 0
  dpos := 0
  dkv := { rows := fun _ => [], fold := [], snap := none }
  pendingPos := none
  genMax := 0
  genCount := 0
  gen :=
    { smp := (), cbState := 0, calls := [], phase := .think, tagPossible := false, tagMatch := 0,
      closeMatch := 0, pv := Json.jsonvInit, cdoc := [], cdocRec := true, closing := false,
      hitStop := false, oom := false, preludeMax := 0, preludeCount := 0,
      preludeExhausted := false }

theorem thinking_sound (abortAt : Nat) : Sound (thinkingSetup abortAt) thinkingEngine :=
  ⟨forward_coherent coherent_nil 0, Nat.zero_le 1, fun _ _ => coherent_nil⟩

/-- A callback that never aborts. -/
theorem thinking_agrees :
    SameAnswer (generatePlain (thinkingSetup 0) thinkingEngine () 4)
        (generateSpec (thinkingSetup 0) thinkingEngine () 4) ↔
      AbortsKept (thinkingSetup 0).m.w (thinkingSetup 0).c 4
        ((thinkingSetup 0).m.nCtx - thinkingEngine.pos) thinkingEngine.tokens
        (engineGenBegin 4 thinkingEngine).gen () 0 :=
  speculative_agrees_iff (thinking_sound 0) () 4

/-- With four tokens asked for the prelude gets two; the callback aborts on the
second, and the speculative loop closes the block and decodes the empty object. -/
theorem last_prelude_token_disagrees :
    ¬ SameAnswer (generatePlain (thinkingSetup 2) thinkingEngine () 4)
      (generateSpec (thinkingSetup 2) thinkingEngine () 4) := by
  intro same
  have count := same.2
  revert count
  decide +kernel

end LastPreludeToken

end GridcoreRunner.Generation
