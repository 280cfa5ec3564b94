import GridcoreRunner.Causal
import GridcoreRunner.Engine.Constraint

/-!
# Engine state, prompt feeding and the generation step

`pos` is the next free KV row, `hist` the tokens whose KV occupies `[0, pos)`,
`dpos` the draft model's position. The generation step of `engine_gen_step` ends
where the caller owns the forward.
-/

namespace GridcoreRunner.Generation

set_option autoImplicit false

open GridcoreRunner.Causal

variable {V σ κ Row Fold Logits : Type*}

/-- A loaded model: weights, context and batch sizes, vocabulary. `verifyOk` is
whether `model_forward_batch_keep` is available on its backend. -/
structure Model (Row Fold Logits : Type*) where
  w : Weights Nat Row Fold Logits
  nCtx : Nat
  nBatch : Nat
  specBatch : Nat
  nVocab : Nat
  verifyOk : Bool

/-- A draft model proposes the argmax of its own logits. -/
structure Draft (Row Fold Logits : Type*) extends Model Row Fold Logits where
  argmax : Logits → Nat
  draftK : Nat

/-- Everything fixed while an engine serves: the target, an optional draft, the
grammar drafter with its switch, and the request configuration. -/
structure Setup (V σ κ Row Fold Logits : Type*) where
  m : Model Row Fold Logits
  dm : Option (Draft Row Fold Logits)
  gramFf : Bool
  grammarDraft : Gen V σ κ → Nat → List Nat
  c : Config V σ κ Logits

structure Engine (V σ κ Row Fold : Type*) where
  pos : Nat
  hist : Nat → Nat
  kv : Kv Row Fold
  dpos : Nat
  dkv : Kv Row Fold
  pendingPos : Option Nat
  genMax : Int
  genCount : Nat
  gen : Gen V σ κ

/-- `hist[0..pos)`, the tokens the engine says its cache holds. -/
def Engine.tokens (e : Engine V σ κ Row Fold) : List Nat := cells e.hist e.pos

/-- `hist[0..dpos)`. -/
def Engine.draftTokens (e : Engine V σ κ Row Fold) : List Nat := cells e.hist e.dpos

@[simp] theorem Engine.tokens_length (e : Engine V σ κ Row Fold) : e.tokens.length = e.pos := by
  simp [Engine.tokens]

@[simp] theorem Engine.draft_tokens_length (e : Engine V σ κ Row Fold) :
    e.draftTokens.length = e.dpos := by
  simp [Engine.draftTokens]

/-- Sampler, validator and prelude state at the start of a request; `accepted`
tokens count toward the repeat-penalty window. -/
def genReset (c : Config V σ κ Logits) (g : Gen V σ κ) (accepted : List Nat) : Gen V σ κ :=
  let g := { g with
    hitStop := false
    smp := accepted.foldl c.samplerAccept (c.samplerReset g.smp)
    pv := c.payload.init }
  cdocRelease (constraintReset c g)

def engineReset (s : Setup V σ κ Row Fold Logits) (e : Engine V σ κ Row Fold) :
    Engine V σ κ Row Fold :=
  { e with pos := 0, dpos := 0, gen := genReset s.c e.gen [] }

/-- `engine_think_started`. -/
def engineThinkStarted (s : Setup V σ κ Row Fold Logits) (e : Engine V σ κ Row Fold) :
    Engine V σ κ Row Fold :=
  if s.c.thinkClose.isSome then
    { e with gen := { e.gen with phase := .think, tagPossible := false, tagMatch := 0,
                                 closeMatch := 0 } }
  else e

/-- `model_recurrent_reset`. -/
def recurrentReset (m : Model Row Fold Logits) (kv : Kv Row Fold) : Kv Row Fold :=
  if m.w.recurrent then { kv with fold := m.w.fold0, snap := none } else kv

/-- `model_recurrent_snapshot`. -/
def recurrentSnapshot (m : Model Row Fold Logits) (kv : Kv Row Fold) (pos : Nat) : Kv Row Fold :=
  if m.w.recurrent then { kv with snap := some (pos, kv.fold) } else kv

/-- `model_recurrent_restore`: only a checkpoint taken at exactly `pos` restores. -/
def recurrentRestore (m : Model Row Fold Logits) (kv : Kv Row Fold) (pos : Nat) :
    Option (Kv Row Fold) :=
  if m.w.recurrent then
    match kv.snap with
    | some (position, fold) => if position = pos then some { kv with fold } else none
    | none => none
  else none

/-- `dpos_rewind`: a recurrent draft cannot be sliced and goes back to zero. -/
def dposRewind (s : Setup V σ κ Row Fold Logits) (e : Engine V σ κ Row Fold) (target : Nat) :
    Engine V σ κ Row Fold :=
  if e.dpos ≤ target then e
  else { e with dpos := if (s.dm.map (·.w.recurrent)).getD false then 0 else target }

/-- Longest common prefix of the cached tokens and the prompt, one prompt token
short: at least one must be fed to get logits. -/
def keepLength (hist : Nat → Nat) : Nat → Nat → List Nat → Nat
  | _, _, [] => 0
  | _, _, [_] => 0
  | 0, _, _ => 0
  | fuel + 1, at_, tok :: toks => if hist at_ = tok then keepLength hist fuel (at_ + 1) toks + 1 else 0

def engineRewind (s : Setup V σ κ Row Fold Logits) (e : Engine V σ κ Row Fold)
    (toks : List Nat) : Engine V σ κ Row Fold × Nat :=
  let keep := keepLength e.hist e.pos 0 toks
  let (kv, keep) :=
    if s.m.w.recurrent && decide (keep < e.pos) then
      match recurrentRestore s.m e.kv keep with
      | some kv => (kv, keep)
      | none => (recurrentReset s.m e.kv, 0)
    else (e.kv, keep)
  let e := dposRewind s { e with kv, pos := keep } keep
  ({ e with gen := genReset s.c e.gen (toks.take keep) }, keep)

/-- `engine_feed`: one `n_batch` chunk at a time. `polls` is what the
cancellation predicate answers between chunks. The flag says whether the run
ended with logits. -/
def engineFeed (s : Setup V σ κ Row Fold Logits) :
    Nat → List Bool → Engine V σ κ Row Fold → List Nat → Engine V σ κ Row Fold × Option Logits
  | 0, _, e, _ => (e, none)
  | fuel + 1, polls, e, toks =>
      let chunk := toks.take s.m.nBatch
      if e.pos + chunk.length > s.m.nCtx then (e, none)
      else
        let logits := (forwardHeads s.m.w e.kv chunk e.pos).getLast?
        let e' := { e with
          hist := blit e.hist e.pos chunk
          kv := forwardBatch s.m.w e.kv chunk e.pos
          gen := { e.gen with smp := chunk.foldl s.c.samplerAccept e.gen.smp }
          pos := e.pos + chunk.length }
        let rest := toks.drop s.m.nBatch
        if rest.isEmpty then (e', logits)
        else if polls.headD false then (e', none)
        else engineFeed s fuel polls.tail e' rest

def feedPrompt (s : Setup V σ κ Row Fold Logits) (polls : List Bool)
    (e : Engine V σ κ Row Fold) (toks : List Nat) : Engine V σ κ Row Fold × Option Logits :=
  engineFeed s (toks.length + 1) polls e toks

def engineGenBegin (maxNew : Int) (e : Engine V σ κ Row Fold) : Engine V σ κ Row Fold :=
  { e with
    gen := { e.gen with
      hitStop := false
      oom := false
      preludeCount := 0
      preludeExhausted := false
      preludeMax := if maxNew < 0 then 0 else if maxNew > 1 then maxNew / 2 else maxNew }
    genMax := maxNew
    genCount := 0
    pendingPos := none }

/-- The callback work both loops do for a sampled token: the constrained accept
(or the raw callback), the decoded-empty reasoning close, and a protocol token
accepted by its spelling. -/
def tokenCallbacks (c : Config V σ κ Logits) (g : Gen V σ κ) (tok : Nat) : Gen V σ κ × Bool :=
  let bytes := c.decode tok
  let (g, rc) :=
    if bytes.isEmpty then (g, false)
    else if c.constrained then constraintAccept c g bytes
    else emit c g bytes
  let (g, rc) := if !rc && c.constrained then constraintControlAccept c g tok else (g, rc)
  if !rc && c.schema && bytes.isEmpty && constraintSpellingOk c g tok then
    constraintAccept c g ((c.raw tok).getD [])
  else (g, rc)

/-- Whether the token just accepted spends the last of the prelude budget. -/
def preludeSpent (inPrelude : Bool) (g : Gen V σ κ) : Bool :=
  inPrelude && (g.phase == .probe || g.phase == .think) && decide (g.preludeMax > 0) &&
    decide (g.preludeCount + 1 ≥ g.preludeMax)

/-- `++e->prelude_count`, reached only where the earlier conjuncts hold. -/
def preludeTick (inPrelude : Bool) (g : Gen V σ κ) : Gen V σ κ :=
  if inPrelude && (g.phase == .probe || g.phase == .think) && decide (g.preludeMax > 0) then
    { g with preludeCount := g.preludeCount + 1 }
  else g

/-- A token sampled, or the end the sampler itself decided. -/
inductive Sampled (V σ κ : Type*)
  | ended (g : Gen V σ κ)
  | token (g : Gen V σ κ) (tok : Nat)

/-- Sample, accept, and stop-check, as both loops open a step. -/
def sampleToken (c : Config V σ κ Logits) (g : Gen V σ κ) (logits : Logits) : Sampled V σ κ :=
  match c.samplePick g.smp logits (sampleOk c g) with
  | (.noCandidate, smp) => .ended { g with smp, hitStop := true }
  | (.outOfMemory, smp) => .ended { g with smp, oom := true, hitStop := true }
  | (.token tok, smp) =>
      let g := { g with smp := c.samplerAccept smp tok }
      if c.isStop tok && !c.ignoreEos then .ended { g with hitStop := true } else .token g tok

/-- The rest of `engine_gen_step` for a sampled token: `true` asks for a forward. -/
def genToken (c : Config V σ κ Logits) (g : Gen V σ κ) (tok : Nat) : Gen V σ κ × Bool :=
  let inPrelude := c.constrained && g.phase != .output
  let (g, rc) := tokenCallbacks c g tok
  if rc then (g, false)
  else
    let spent := preludeSpent inPrelude g
    let g := preludeTick inPrelude g
    let (g, rc) := if spent then constraintFinishThink c { g with preludeExhausted := true }
      else (g, false)
    if rc then (g, false)
    else if c.constrained && constraintDone c g then ({ g with hitStop := true }, false)
    else (g, true)

/-- `engine_gen_step`: the token and the row it hands out, or `none` when done. -/
def engineGenStep (s : Setup V σ κ Row Fold Logits) (e : Engine V σ κ Row Fold)
    (logits : Logits) : Engine V σ κ Row Fold × Option (Nat × Nat) :=
  let e := { e with pendingPos := none }
  if !((e.genMax < 0 || (e.genCount : Int) < e.genMax) && e.pos < s.m.nCtx) then (e, none)
  else
    match sampleToken s.c e.gen logits with
    | .ended gen => ({ e with gen }, none)
    | .token gen tok =>
        let (gen, more) := genToken s.c gen tok
        let e := { e with gen, genCount := e.genCount + 1 }
        if more then
          ({ e with
            hist := Function.update e.hist e.pos tok
            pos := e.pos + 1
            pendingPos := some e.pos }, some (tok, e.pos))
        else (e, none)

/-- `engine_gen_end`: an abandoned row is given back before the close. -/
def engineGenEnd (s : Setup V σ κ Row Fold Logits) (e : Engine V σ κ Row Fold) :
    Engine V σ κ Row Fold :=
  let e := match e.pendingPos with
    | some pos => { dposRewind s { e with pos } pos with pendingPos := none }
    | none => e
  { e with gen := constraintClose s.c e.gen }

/-- The caller's half of a step: forward the row that was handed out. -/
def forwardPending (s : Setup V σ κ Row Fold Logits) (e : Engine V σ κ Row Fold)
    (tok pos : Nat) : Engine V σ κ Row Fold × Logits :=
  ({ e with kv := forward s.m.w e.kv tok pos }, forwardHead s.m.w e.kv tok pos)

/-- The solo loop of `engine_generate`, no cancellation. -/
def genLoop (s : Setup V σ κ Row Fold Logits) :
    Nat → Engine V σ κ Row Fold → Logits → Engine V σ κ Row Fold
  | 0, e, _ => e
  | fuel + 1, e, logits =>
      match engineGenStep s e logits with
      | (e, none) => e
      | (e, some (tok, pos)) =>
          let (e, logits) := forwardPending s e tok pos
          genLoop s fuel e logits

/-- `engine_gen_begin`, the loop, `engine_gen_end`. Every step advances `pos`, so
the context bounds the loop. -/
def generatePlain (s : Setup V σ κ Row Fold Logits) (e : Engine V σ κ Row Fold)
    (logits : Logits) (maxNew : Int) : Engine V σ κ Row Fold :=
  engineGenEnd s (genLoop s (s.m.nCtx - e.pos + 1) (engineGenBegin maxNew e) logits)

end GridcoreRunner.Generation
