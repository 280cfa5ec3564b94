import GridcoreRunner.Engine.SpecCoherence

/-!
# Both generation loops read as one line of tokens

Over a coherent cache the logits behind a token depend on the tokens alone, so a
generation is a run over the token list: `plainLine` is what the step loop does
with it, `specLine` what the speculative loop does, whatever was drafted. The
first argument is the room left in the context.
-/

namespace GridcoreRunner.Generation

set_option autoImplicit false

open GridcoreRunner.Causal

variable {V σ κ Row Fold Logits : Type*}

def plainLine (w : Weights Nat Row Fold Logits) (c : Config V σ κ Logits) (maxNew : Int) :
    Nat → List Nat → Gen V σ κ → Logits → Nat → Gen V σ κ × Nat
  | 0, _, g, _, count => (constraintClose c g, count)
  | room + 1, line, g, logits, count =>
      if !budgetLeft maxNew count then (constraintClose c g, count)
      else
        match sampleToken c g logits with
        | .ended g => (constraintClose c g, count)
        | .token g tok =>
            let out := genToken c g tok
            if out.2 then
              plainLine w c maxNew room (line ++ [tok]) out.1 (coldHead w line tok) (count + 1)
            else (constraintClose c out.1, count + 1)

def specLine (w : Weights Nat Row Fold Logits) (c : Config V σ κ Logits) (maxNew : Int) :
    Nat → List Nat → Gen V σ κ → Logits → Nat → Gen V σ κ × Nat
  | 0, _, g, _, count => (constraintClose c g, count)
  | room + 1, line, g, logits, count =>
      if !budgetLeft maxNew count then (constraintClose c g, count)
      else
        match sampleToken c g logits with
        | .ended g => (constraintClose c g, count)
        | .token g tok =>
            let out := specToken c g tok
            if out.constrainedDone then ({ out.gen with hitStop := true }, count + 1)
            else if out.rc then (constraintClose c out.gen, count + 1)
            else specLine w c maxNew room (line ++ [tok]) out.gen (coldHead w line tok) (count + 1)

variable {s : Setup V σ κ Row Fold Logits} {e : Engine V σ κ Row Fold}

/-! ## The step loop -/

theorem gen_end_gen (e : Engine V σ κ Row Fold) :
    (engineGenEnd s e).gen = constraintClose s.c e.gen ∧
      (engineGenEnd s e).genCount = e.genCount := by
  cases pending : e.pendingPos with
  | none =>
      rw [gen_end_none pending]
      exact ⟨rfl, rfl⟩
  | some pos =>
      rw [gen_end_some pending]
      apply And.intro rfl
      unfold dposRewind
      split <;> rfl

/-- Whether a step may sample at all. -/
def mayStep (s : Setup V σ κ Row Fold Logits) (e : Engine V σ κ Row Fold) : Prop :=
  budgetLeft e.genMax e.genCount = true ∧ e.pos < s.m.nCtx

/-- The engine behind a step that handed out `(tok, e.pos)`. -/
def handOut (e : Engine V σ κ Row Fold) (gen : Gen V σ κ) (tok : Nat) : Engine V σ κ Row Fold :=
  { e with
    gen
    genCount := e.genCount + 1
    hist := Function.update e.hist e.pos tok
    pos := e.pos + 1
    pendingPos := some e.pos }

theorem may_step_guard :
    (!((decide (e.genMax < 0) || decide ((e.genCount : Int) < e.genMax)) &&
      decide (e.pos < s.m.nCtx))) = true ↔ ¬ mayStep s e := by
  simp only [mayStep, budgetLeft, Bool.not_eq_true', Bool.and_eq_false_iff, Bool.or_eq_false_iff,
    Bool.or_eq_true, decide_eq_true_eq, decide_eq_false_iff_not]
  omega

theorem gen_step_blocked (blocked : ¬ mayStep s e) (logits : Logits) :
    engineGenStep s e logits = ({ e with pendingPos := none }, none) := by
  simp only [engineGenStep]
  rw [if_pos (may_step_guard.mpr blocked)]

theorem gen_step_ended (free : mayStep s e) {logits : Logits} {gen : Gen V σ κ}
    (sampled : sampleToken s.c e.gen logits = .ended gen) :
    engineGenStep s e logits = ({ e with pendingPos := none, gen }, none) := by
  simp only [engineGenStep, sampled]
  rw [if_neg (fun blocked => may_step_guard.mp blocked free)]

theorem gen_step_stopped (free : mayStep s e) {logits : Logits} {gen : Gen V σ κ} {tok : Nat}
    (sampled : sampleToken s.c e.gen logits = .token gen tok)
    (stopped : ¬ (genToken s.c gen tok).2 = true) :
    engineGenStep s e logits = ({ e with
      pendingPos := none
      gen := (genToken s.c gen tok).1
      genCount := e.genCount + 1 }, none) := by
  simp only [engineGenStep, sampled]
  rw [if_neg (fun blocked => may_step_guard.mp blocked free), if_neg stopped]

theorem gen_step_more (free : mayStep s e) {logits : Logits} {gen : Gen V σ κ} {tok : Nat}
    (sampled : sampleToken s.c e.gen logits = .token gen tok)
    (more : (genToken s.c gen tok).2 = true) :
    engineGenStep s e logits = (handOut e (genToken s.c gen tok).1 tok, some (tok, e.pos)) := by
  simp only [engineGenStep, sampled]
  rw [if_neg (fun blocked => may_step_guard.mp blocked free), if_pos more]
  rfl

/-- A loop whose step is done closes the constraint. -/
theorem gen_loop_done {logits : Logits} {last : Engine V σ κ Row Fold} (fuel : Nat)
    (done : engineGenStep s e logits = (last, none)) :
    ((engineGenEnd s (genLoop s (fuel + 1) e logits)).gen,
      (engineGenEnd s (genLoop s (fuel + 1) e logits)).genCount) =
      (constraintClose s.c last.gen, last.genCount) := by
  rw [genLoop, done]
  exact Prod.ext (gen_end_gen last).1 (gen_end_gen last).2

/-- The step loop and its end are the plain line. -/
theorem gen_loop_line (fuel : Nat) (h : Sound s e) (logits : Logits)
    (enough : s.m.nCtx - e.pos < fuel) :
    ((engineGenEnd s (genLoop s fuel e logits)).gen,
      (engineGenEnd s (genLoop s fuel e logits)).genCount) =
      plainLine s.m.w s.c e.genMax (s.m.nCtx - e.pos) e.tokens e.gen logits e.genCount := by
  induction fuel generalizing e logits with
  | zero => omega
  | succ fuel induction =>
      cases room : s.m.nCtx - e.pos with
      | zero =>
          have full : ¬ mayStep s e := fun free => by
            have := free.2
            omega
          rw [plainLine]
          have closed := gen_loop_done fuel (gen_step_blocked full logits)
          exact closed
      | succ left =>
          rw [plainLine]
          by_cases budget : budgetLeft e.genMax e.genCount = true
          · have free : mayStep s e := ⟨budget, by omega⟩
            simp only [budget, Bool.not_true, Bool.false_eq_true, if_false]
            cases sampled : sampleToken s.c e.gen logits with
            | ended gen =>
                have closed := gen_loop_done fuel (gen_step_ended free sampled)
                exact closed
            | token gen tok =>
                by_cases more : (genToken s.c gen tok).2 = true
                · have out := gen_step_more free sampled more
                  have owed := (gen_step_sound h logits).2 tok e.pos (by rw [out])
                  rw [out] at owed
                  have head := forward_head_of_coherent owed.target.rows owed.target.fold tok
                  have below : cells (handOut e (genToken s.c gen tok).1 tok).hist e.pos = e.tokens := by
                    exact cells_update_above _ _ _ _ (Nat.le_refl e.pos)
                  have tokens : (handOut e (genToken s.c gen tok).1 tok).tokens = e.tokens ++ [tok] :=
                    cells_update _ _ _
                  rw [cells_length, below] at head
                  have rest := induction (forward_pending_sound owed)
                    (forwardHead s.m.w e.kv tok e.pos) (by simp only [forwardPending, handOut]; omega)
                  have left_eq : s.m.nCtx - (e.pos + 1) = left := by omega
                  simp only [more, if_true]
                  rw [genLoop, out]
                  show ((engineGenEnd s (genLoop s fuel
                    (forwardPending s (handOut e (genToken s.c gen tok).1 tok) tok e.pos).1
                    (forwardHead s.m.w e.kv tok e.pos))).gen, _) = _
                  rw [← head, ← left_eq, ← tokens]
                  exact rest
                · simp only [more, Bool.false_eq_true, if_false]
                  have closed := gen_loop_done fuel (gen_step_stopped free sampled more)
                  exact closed
          · have blocked : ¬ mayStep s e := fun free => budget free.1
            simp only [budget, Bool.not_false, if_true]
            have closed := gen_loop_done fuel (gen_step_blocked blocked logits)
            exact closed

/-! ## The speculative loop -/

/-- Drafts never reach the last row of the context. -/
theorem draft_propose_room (d : Draft Row Fold Logits) (fuel : Nat) (e : Engine V σ κ Row Fold)
    (dl : Logits) (nd : Nat) :
    (draftPropose s d fuel e dl nd).2.2 = [] ∨
      e.pos + nd + (draftPropose s d fuel e dl nd).2.2.length < s.m.nCtx := by
  induction fuel generalizing e dl nd with
  | zero => exact .inl rfl
  | succ fuel induction =>
      simp only [draftPropose]
      split
      · next free =>
        split
        · exact .inl rfl
        · right
          simp only [Bool.and_eq_true, decide_eq_true_eq] at free
          have later := induction
            { e with dkv := forward d.w e.dkv (d.argmax dl) e.dpos, dpos := e.dpos + 1 }
            (forwardHead d.w e.dkv (d.argmax dl) e.dpos) (nd + 1)
          simp only at later
          rw [List.length_cons]
          rcases later with none | room
          · rw [none, List.length_nil]
            omega
          · omega
      · exact .inl rfl

theorem grammar_round_room (e : Engine V σ κ Row Fold) (maxNew : Int) (nGen : Nat)
    (inside : e.pos < s.m.nCtx) : e.pos + (grammarRound s e maxNew nGen).length < s.m.nCtx := by
  simp only [grammarRound]
  generalize (if maxNew ≥ 0 then min (grammarWindow s.m) (maxNew - nGen).toNat
    else grammarWindow s.m) = cap
  split_ifs
  · rw [List.length_take]
    omega
  · exact inside
  · exact inside

theorem draft_round_room (e : Engine V σ κ Row Fold) (dl : Option Logits) (maxNew : Int)
    (nGen : Nat) (inside : e.pos < s.m.nCtx) :
    e.pos + (draftRound s e dl maxNew nGen).2.2.length < s.m.nCtx := by
  simp only [draftRound]
  split
  · exact grammar_round_room e maxNew nGen inside
  · split
    · exact inside
    · next d _ =>
      have caught := (draft_catch_up_frame d (e.pos - e.dpos) e dl).1
      split
      · exact inside
      · next logits _ =>
        rcases draft_propose_room (s := s) d (draftWindow s.m d.draftK)
          (draftCatchUp d (e.pos - e.dpos) e dl).1 logits 0 with none | room
        · simp only [none]
          exact inside
        · rw [caught] at room
          simpa using room

/-- Where the line goes on behind one walk. -/
def WalkEnd.finish (s : Setup V σ κ Row Fold Logits) (maxNew : Int) :
    WalkEnd V σ κ Row Fold Logits → Gen V σ κ × Nat
  | .done e nGen => (constraintClose s.c e.gen, nGen)
  | .returned e nGen => (e.gen, nGen)
  | .round e nGen logits =>
      specLine s.m.w s.c maxNew (s.m.nCtx - e.pos) e.tokens e.gen logits nGen

@[simp] theorem keep_accepted_gen (e : Engine V σ κ Row Fold) (drafts : List Nat) (acc : Nat) :
    (keepAccepted s e drafts acc).gen = e.gen :=
  (spec_fold_sync_frame drafts acc e.pos).2.2.2.2

@[simp] theorem keep_accepted_pos (e : Engine V σ κ Row Fold) (drafts : List Nat) (acc : Nat) :
    (keepAccepted s e drafts acc).pos = e.pos + acc :=
  (spec_fold_sync_frame drafts acc e.pos).1

/-- The token at a rejected or bonus position, next to the line. -/
theorem reject_line {drafts : List Nat} {acc : Nat} (maxNew : Int) (tok : Nat) (nGen : Nat)
    {gen : Gen V σ κ} (h : WalkSound s { e with gen } drafts acc) {out : Engine V σ κ Row Fold}
    (out_eq : out = { keepAccepted s { e with gen } drafts acc with
      hist := Function.update (keepAccepted s { e with gen } drafts acc).hist
        (keepAccepted s { e with gen } drafts acc).pos tok
      kv := forward s.m.w (keepAccepted s { e with gen } drafts acc).kv tok
        (keepAccepted s { e with gen } drafts acc).pos
      pos := (keepAccepted s { e with gen } drafts acc).pos + 1 }) :
    specLine s.m.w s.c maxNew (s.m.nCtx - (dposRewind s out (out.pos - 1)).pos)
        (dposRewind s out (out.pos - 1)).tokens (dposRewind s out (out.pos - 1)).gen
        (forwardHead s.m.w (keepAccepted s { e with gen } drafts acc).kv tok
          (keepAccepted s { e with gen } drafts acc).pos) nGen =
      specLine s.m.w s.c maxNew (s.m.nCtx - (e.pos + acc + 1))
        ((e.tokens ++ drafts.take acc) ++ [tok]) gen
        (coldHead s.m.w (e.tokens ++ drafts.take acc) tok) nGen := by
  obtain ⟨-, tokens, head⟩ := reject_sound tok h rfl out_eq
  have accepted : cells e.hist (e.pos + acc) = e.tokens ++ drafts.take acc := h.accepted
  have pos : out.pos = e.pos + acc + 1 := by rw [out_eq, keep_accepted_pos]
  have kept : out.gen = gen := by rw [out_eq, keep_accepted_gen]
  have same : (dposRewind s out (out.pos - 1)).tokens = out.tokens := by
    rw [Engine.tokens, dpos_rewind_hist, dpos_rewind_pos, Engine.tokens]
  rw [head, same, tokens, dpos_rewind_pos, dpos_rewind_gen, pos, kept]
  simp only [accepted]

/-- A walk over drafts whose rows are the cold ones, with what follows it, is the
line from the accepted prefix on. The induction is on the drafts not reached. -/
theorem spec_walk_line {drafts : List Nat} (maxNew : Int) {rest : List (Nat × Logits)} {acc : Nat}
    (nGen : Nat) (logits : Logits) (h : WalkSound s e drafts acc)
    (left : rest.map Prod.fst = drafts.drop acc)
    (heads : rest.map Prod.snd =
      coldHeads s.m.w (e.tokens ++ drafts.take acc) (drafts.drop acc))
    (inside : e.pos + drafts.length < s.m.nCtx) :
    (specWalk s drafts maxNew rest acc e logits nGen).finish s maxNew =
      specLine s.m.w s.c maxNew (s.m.nCtx - (e.pos + acc)) (e.tokens ++ drafts.take acc) e.gen
        logits nGen := by
  induction rest generalizing acc e logits nGen with
  | nil =>
      have room : s.m.nCtx - (e.pos + acc) = s.m.nCtx - (e.pos + acc + 1) + 1 := by
        have := h.accLe
        omega
      unfold specWalk
      rw [room, specLine]
      by_cases budget : budgetLeft maxNew nGen = true
      · simp only [budget, Bool.not_true, Bool.false_eq_true, if_false]
        cases sampled : sampleToken s.c e.gen logits with
        | ended gen => simp [WalkEnd.finish]
        | token gen tok =>
            simp only
            have line := reject_line maxNew tok (nGen + 1)
              (h.with_gen (specToken s.c gen tok).gen) rfl
            split
            · simp [WalkEnd.finish]
            · split
              · simp [WalkEnd.finish]
              · exact line
      · simp [budget, WalkEnd.finish]
  | cons pair rest induction =>
      obtain ⟨draft, rowLogits⟩ := pair
      have next : drafts[acc]? = some draft := by
        rw [← List.head?_drop, ← left]
        rfl
      have drop_eq : drafts.drop acc = draft :: drafts.drop (acc + 1) := by
        obtain ⟨here, value⟩ := List.getElem?_eq_some_iff.mp next
        rw [List.drop_eq_getElem_cons here, value]
      have later : rest.map Prod.fst = drafts.drop (acc + 1) := by
        rw [drop_eq] at left
        exact (List.cons.inj left).2
      rw [drop_eq, coldHeads] at heads
      obtain ⟨row, rows⟩ := List.cons.inj heads
      have room : s.m.nCtx - (e.pos + acc) = s.m.nCtx - (e.pos + acc + 1) + 1 := by
        have := h.accLe
        omega
      unfold specWalk
      rw [room, specLine]
      by_cases budget : budgetLeft maxNew nGen = true
      · simp only [budget, Bool.not_true, Bool.false_eq_true, if_false]
        cases sampled : sampleToken s.c e.gen logits with
        | ended gen => simp [WalkEnd.finish]
        | token gen tok =>
            simp only
            by_cases matched : tok = draft ∧ (specToken s.c gen tok).rc = false
            · rw [if_pos matched]
              obtain ⟨rfl, quiet⟩ := matched
              have taken := h.accept tok next (specToken s.c gen tok).gen
              split
              · simp [WalkEnd.finish]
              · simp only [quiet, Bool.false_eq_true, if_false]
                have line := cells_update_above e.hist e.pos (e.pos + acc) tok
                  (Nat.le_add_right e.pos acc)
                have grown : drafts.take (acc + 1) = drafts.take acc ++ [tok] := by
                  rw [List.take_add_one, next]
                  rfl
                have onward := induction (nGen + 1) rowLogits taken later
                  (by rw [Engine.tokens, line, grown, ← List.append_assoc]; exact rows) inside
                rw [Engine.tokens, line, grown, ← List.append_assoc] at onward
                rw [← row]
                exact onward
            · rw [if_neg matched]
              have line := reject_line maxNew tok (nGen + 1)
                (h.with_gen (specToken s.c gen tok).gen) rfl
              split
              · simp [WalkEnd.finish]
              · split
                · simp [WalkEnd.finish]
                · exact line
      · simp [budget, WalkEnd.finish]

/-- A round moves the position. -/
def WalkEnd.Advances (pos : Nat) : WalkEnd V σ κ Row Fold Logits → Prop
  | .round e _ _ => pos < e.pos
  | _ => True

theorem spec_walk_advances (drafts : List Nat) (maxNew : Int) (rest : List (Nat × Logits))
    (acc : Nat) (e : Engine V σ κ Row Fold) (logits : Logits) (nGen : Nat) :
    (specWalk s drafts maxNew rest acc e logits nGen).Advances e.pos := by
  have ahead : e.pos < e.pos + acc + 1 := by omega
  induction rest generalizing acc e logits nGen with
  | nil =>
      unfold specWalk
      simp only
      split
      · trivial
      · split
        · trivial
        · split
          · trivial
          · split
            · trivial
            · rw [WalkEnd.Advances, dpos_rewind_pos, keep_accepted_pos]
              exact ahead
  | cons pair rest induction =>
      unfold specWalk
      simp only
      split
      · trivial
      · split
        · trivial
        · split
          · split
            · trivial
            · apply induction
              simp only
              omega
          · split
            · trivial
            · split
              · trivial
              · rw [WalkEnd.Advances, dpos_rewind_pos, keep_accepted_pos]
                exact ahead

/-- The speculative loop is the speculative line, whatever it drafts. -/
theorem spec_loop_line (fuel : Nat) (maxNew : Int) (h : Sound s e) (logits : Logits)
    (dl : Option Logits) (nGen : Nat) (enough : s.m.nCtx - e.pos < fuel) :
    ((specLoop s maxNew fuel e logits dl nGen).1.gen, (specLoop s maxNew fuel e logits dl nGen).2) =
      specLine s.m.w s.c maxNew (s.m.nCtx - e.pos) e.tokens e.gen logits nGen := by
  induction fuel generalizing e logits dl nGen with
  | zero => omega
  | succ fuel induction =>
      simp only [specLoop]
      by_cases guard : (budgetLeft maxNew nGen && decide (e.pos < s.m.nCtx)) = true
      · simp only [guard, Bool.not_true, Bool.false_eq_true, if_false]
        have inside : e.pos < s.m.nCtx := by
          simp only [Bool.and_eq_true, decide_eq_true_eq] at guard
          exact guard.2
        have start := walk_sound_start h dl maxNew nGen
        have round := draft_round_spec h dl maxNew nGen
        have short := draft_round_room (s := s) e dl maxNew nGen inside
        simp only at start round
        generalize draftRound s e dl maxNew nGen = drafted at start round short ⊢
        obtain ⟨started, dl', drafts⟩ := drafted
        simp only at start round short ⊢
        obtain ⟨pos, hist, kv, gen, -⟩ := round
        have tokens : started.tokens = e.tokens := by rw [Engine.tokens, pos, hist, Engine.tokens]
        have cache : Coherent s.m.w started.kv started.tokens := by
          rw [kv, tokens]
          exact h.target
        obtain ⟨pos', hist', -, -, gen', rows, -⟩ := verify_round_spec cache drafts
        generalize verifyRound s started drafts = out at start pos' hist' gen' rows ⊢
        have tokens' : out.1.tokens = e.tokens := by
          rw [Engine.tokens, pos', hist', ← Engine.tokens, tokens]
        have length : (out.2.map Prod.fst).length ≤ drafts.length := by
          rcases rows with full | none
          · exact Nat.le_of_eq (by rw [full.1])
          · simp [none]
        have heads : out.2.map Prod.snd = coldHeads s.m.w (out.1.tokens ++
            (out.2.map Prod.fst).take 0) ((out.2.map Prod.fst).drop 0) := by
          rcases rows with full | none
          · rw [List.drop_zero, List.take_zero, List.append_nil, tokens', full.1, ← tokens]
            exact full.2
          · simp [none, coldHeads]
        have line := spec_walk_line maxNew nGen logits start (by rw [List.drop_zero]) heads
          (by rw [pos', pos]; omega)
        have walked := spec_walk_sound maxNew nGen logits start (by rw [List.drop_zero])
        have ahead := spec_walk_advances (s := s) (out.2.map Prod.fst) maxNew out.2 0 out.1 logits
          nGen
        rw [List.take_zero, List.append_nil, Nat.add_zero, tokens', gen', gen, pos', pos] at line
        rw [← line]
        generalize specWalk s (out.2.map Prod.fst) maxNew out.2 0 out.1 logits nGen = ended
          at walked ahead ⊢
        rw [pos', pos] at ahead
        cases ended with
        | done e nGen => rfl
        | returned e nGen => rfl
        | round next nGen logits =>
            simp only [WalkEnd.Advances] at ahead
            exact induction walked.1 logits dl' nGen (by omega)
      · simp only [guard, Bool.not_false, if_true]
        cases room : s.m.nCtx - e.pos with
        | zero => rfl
        | succ left =>
            have spent : budgetLeft maxNew nGen = false := by
              have inside : e.pos < s.m.nCtx := by omega
              simpa [inside] using guard
            simp [specLine, spent]

theorem generate_plain_line (h : Sound s e) (logits : Logits) (maxNew : Int) :
    ((generatePlain s e logits maxNew).gen, (generatePlain s e logits maxNew).genCount) =
      plainLine s.m.w s.c maxNew (s.m.nCtx - e.pos) e.tokens (engineGenBegin maxNew e).gen logits 0 :=
  gen_loop_line _ (gen_begin_sound maxNew h) logits (Nat.lt_succ_self _)

theorem generate_spec_line (h : Sound s e) (logits : Logits) (maxNew : Int) :
    ((generateSpec s e logits maxNew).1.gen, (generateSpec s e logits maxNew).2) =
      let out := specLine s.m.w s.c maxNew (s.m.nCtx - e.pos) e.tokens
        (engineGenBegin maxNew e).gen logits 0
      (cdocRelease out.1, out.2) := by
  have started : Sound s (specBegin maxNew e) := h.of_same ⟨rfl, rfl, rfl, rfl, rfl⟩
  have line := spec_loop_line (s.m.nCtx - e.pos + 1) maxNew started logits none 0
    (Nat.lt_succ_self _)
  have begun : specLine s.m.w s.c maxNew (s.m.nCtx - e.pos) e.tokens (engineGenBegin maxNew e).gen
      logits 0 = _ := line.symm
  rw [begun]
  rfl

end GridcoreRunner.Generation
