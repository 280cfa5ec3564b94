import GridcoreRunner.Engine.State

/-!
# `engine_generate_spec`

One round drafts tokens, verifies them in one batched target forward and walks
them with the target's own sampler. `nGen` is the local `n_gen`; the row logits
of the verify batch travel beside the drafts.
-/

namespace GridcoreRunner.Generation

set_option autoImplicit false

open GridcoreRunner.Causal

variable {V σ κ Row Fold Logits : Type*}

/-- `SPEC_DRAFT_MAX`. -/
def specDraftMax : Nat := 16

/-- Draft window of a draft model. -/
def draftWindow (m : Model Row Fold Logits) (draftK : Nat) : Nat :=
  min (min (min (max draftK 1) (m.specBatch - 1)) (specDraftMax - 1)) m.nBatch

/-- Draft window of the grammar drafter. -/
def grammarWindow (m : Model Row Fold Logits) : Nat :=
  min (min (m.specBatch - 1) (specDraftMax - 1)) m.nBatch

def budgetLeft (maxNew : Int) (nGen : Nat) : Bool := maxNew < 0 || (nGen : Int) < maxNew

/-- The grammar-pinned drafts of a round. -/
def grammarRound (s : Setup V σ κ Row Fold Logits) (e : Engine V σ κ Row Fold) (maxNew : Int)
    (nGen : Nat) : List Nat :=
  if s.gramFf && s.c.constrained then
    let cap := grammarWindow s.m
    let cap := if maxNew ≥ 0 then min cap (maxNew - nGen).toNat else cap
    let cap := min cap (s.m.nCtx - e.pos - 1)
    if cap > 0 then (s.grammarDraft e.gen cap).take cap else []
  else []

/-- Feed the draft model the accepted tokens it has not seen. The logits are the
last chunk's; `none` when the draft's context is full. -/
def draftCatchUp (d : Draft Row Fold Logits) :
    Nat → Engine V σ κ Row Fold → Option Logits → Engine V σ κ Row Fold × Option Logits
  | 0, e, dl => (e, dl)
  | fuel + 1, e, dl =>
      if e.dpos < e.pos then
        let count := min (e.pos - e.dpos) d.nBatch
        if e.dpos + count > d.nCtx then (e, none)
        else
          let chunk := (List.range count).map fun index => e.hist (e.dpos + index)
          let heads := forwardHeads d.w e.dkv chunk e.dpos
          draftCatchUp d fuel
            { e with dkv := forwardBatch d.w e.dkv chunk e.dpos, dpos := e.dpos + count }
            (if e.dpos + count = e.pos then heads.getLast? else none)
      else (e, dl)

/-- Greedy proposals of the draft model, `nd` of them so far, with the logits it
is left at. -/
def draftPropose (s : Setup V σ κ Row Fold Logits) (d : Draft Row Fold Logits) :
    Nat → Engine V σ κ Row Fold → Logits → Nat → Engine V σ κ Row Fold × Logits × List Nat
  | 0, e, dl, _ => (e, dl, [])
  | fuel + 1, e, dl, nd =>
      if nd < draftWindow s.m d.draftK && e.pos + nd + 1 < s.m.nCtx && e.dpos + 1 < d.nCtx then
        let best := d.argmax dl
        if best ≥ s.m.nVocab then (e, dl, [])
        else
          let next := draftPropose s d fuel
            { e with dkv := forward d.w e.dkv best e.dpos, dpos := e.dpos + 1 }
            (forwardHead d.w e.dkv best e.dpos) (nd + 1)
          (next.1, next.2.1, best :: next.2.2)
      else (e, dl, [])

/-- The drafts of a round: grammar first, the draft model otherwise. -/
def draftRound (s : Setup V σ κ Row Fold Logits) (e : Engine V σ κ Row Fold)
    (dl : Option Logits) (maxNew : Int) (nGen : Nat) :
    Engine V σ κ Row Fold × Option Logits × List Nat :=
  let pinned := grammarRound s e maxNew nGen
  if !pinned.isEmpty then (e, dl, pinned)
  else
    match s.dm with
    | none => (e, dl, [])
    | some d =>
        let (e, dl) := draftCatchUp d (e.pos - e.dpos) e dl
        match dl with
        | none => (e, none, [])
        | some logits =>
            let (e, logits, drafts) := draftPropose s d (draftWindow s.m d.draftK) e logits 0
            (e, some logits, drafts)

/-- `model_forward_batch_keep`: drafts paired with the row logits behind them,
or no drafts at all when the batch cannot be verified. -/
def verifyRound (s : Setup V σ κ Row Fold Logits) (e : Engine V σ κ Row Fold)
    (drafts : List Nat) : Engine V σ κ Row Fold × List (Nat × Logits) :=
  if drafts.isEmpty then (e, [])
  else
    let e := { e with kv := recurrentSnapshot s.m e.kv e.pos }
    if !s.m.verifyOk || drafts.length > s.m.specBatch || drafts.length > s.m.nBatch then (e, [])
    else
      ({ e with kv := forwardBatch s.m.w e.kv drafts e.pos },
        drafts.zip (forwardHeads s.m.w e.kv drafts e.pos))

/-- `spec_fold_sync`: take a recurrent fold back to the accepted prefix. -/
def specFoldSync (s : Setup V σ κ Row Fold Logits) (e : Engine V σ κ Row Fold)
    (drafts : List Nat) (acc roundPos : Nat) : Engine V σ κ Row Fold :=
  if drafts.length = 0 || decide (acc ≥ drafts.length) || !s.m.w.recurrent then e
  else
    match recurrentRestore s.m e.kv roundPos with
    | some kv => { e with kv := forwardBatch s.m.w kv (drafts.take acc) roundPos }
    | none =>
        let accepted := cells e.hist (roundPos + acc)
        { e with kv := forwardBatch s.m.w (recurrentReset s.m e.kv) accepted 0 }

/-- What the loop does with one sampled token; unlike `genToken` it reaches the
prelude budget also behind an aborting callback. -/
structure SpecToken (V σ κ : Type*) where
  gen : Gen V σ κ
  rc : Bool
  constrainedDone : Bool

def specToken (c : Config V σ κ Logits) (g : Gen V σ κ) (tok : Nat) : SpecToken V σ κ :=
  let inPrelude := c.constrained && g.phase != .output
  let (g, rc) := tokenCallbacks c g tok
  let spent := preludeSpent inPrelude g
  let g := preludeTick inPrelude g
  let (g, rc) := if spent then constraintFinishThink c { g with preludeExhausted := true }
    else (g, rc)
  ⟨g, rc, c.constrained && constraintDone c g⟩

/-- How a walk over one round's drafts ends. -/
inductive WalkEnd (V σ κ Row Fold Logits : Type*)
  /-- leave through `done:` and its close -/
  | done (e : Engine V σ κ Row Fold) (nGen : Nat)
  /-- return past the close -/
  | returned (e : Engine V σ κ Row Fold) (nGen : Nat)
  /-- the next round -/
  | round (e : Engine V σ κ Row Fold) (nGen : Nat) (logits : Logits)

/-- Keep `acc` accepted drafts, then roll fold and draft back to them. -/
def keepAccepted (s : Setup V σ κ Row Fold Logits) (e : Engine V σ κ Row Fold)
    (drafts : List Nat) (acc : Nat) : Engine V σ κ Row Fold :=
  specFoldSync s { e with pos := e.pos + acc } drafts acc e.pos

/-- The walk from draft `acc` on; `rest` are the drafts not reached yet and
`e.pos` is still the round's first position. -/
def specWalk (s : Setup V σ κ Row Fold Logits) (drafts : List Nat) (maxNew : Int) :
    List (Nat × Logits) → Nat → Engine V σ κ Row Fold → Logits → Nat →
      WalkEnd V σ κ Row Fold Logits
  | rest, acc, e, logits, nGen =>
      if !budgetLeft maxNew nGen then
        let e := keepAccepted s e drafts acc
        .done (dposRewind s e e.pos) nGen
      else
        match sampleToken s.c e.gen logits with
        | .ended gen =>
            let e := keepAccepted s { e with gen } drafts acc
            .done (dposRewind s e e.pos) nGen
        | .token gen tok =>
            let out := specToken s.c gen tok
            let nGen := nGen + 1
            let reject : WalkEnd V σ κ Row Fold Logits :=
              let e := keepAccepted s { e with gen := out.gen } drafts acc
              if out.constrainedDone then
                .returned (dposRewind s { e with gen := { e.gen with hitStop := true } } e.pos) nGen
              else
                let logits := forwardHead s.m.w e.kv tok e.pos
                let e := { e with
                  hist := Function.update e.hist e.pos tok
                  kv := forward s.m.w e.kv tok e.pos
                  pos := e.pos + 1 }
                let e := dposRewind s e (e.pos - 1)
                if out.rc then .done e nGen else .round e nGen logits
            match rest with
            | [] => reject
            | (draft, rowLogits) :: rest =>
                if tok = draft ∧ out.rc = false then
                  let e := { e with
                    gen := out.gen
                    hist := Function.update e.hist (e.pos + acc) tok }
                  if out.constrainedDone then
                    let e := keepAccepted s
                      { e with gen := { e.gen with hitStop := true } } drafts (acc + 1)
                    .returned (dposRewind s e e.pos) nGen
                  else specWalk s drafts maxNew rest (acc + 1) e rowLogits nGen
                else reject

/-- The rounds of the loop. Each one that comes back advanced `pos`. -/
def specLoop (s : Setup V σ κ Row Fold Logits) (maxNew : Int) :
    Nat → Engine V σ κ Row Fold → Logits → Option Logits → Nat → Engine V σ κ Row Fold × Nat
  | 0, e, _, _, nGen => (e, nGen)
  | fuel + 1, e, logits, dl, nGen =>
      if !(budgetLeft maxNew nGen && e.pos < s.m.nCtx) then
        ({ e with gen := constraintClose s.c e.gen }, nGen)
      else
        let (e, dl, drafts) := draftRound s e dl maxNew nGen
        let (e, rows) := verifyRound s e drafts
        match specWalk s (rows.map Prod.fst) maxNew rows 0 e logits nGen with
        | .done e nGen => ({ e with gen := constraintClose s.c e.gen }, nGen)
        | .returned e nGen => (e, nGen)
        | .round e nGen logits => specLoop s maxNew fuel e logits dl nGen

/-- The fields the loop sets up before its first round. -/
def specBegin (maxNew : Int) (e : Engine V σ κ Row Fold) : Engine V σ κ Row Fold :=
  { e with gen := { e.gen with
    hitStop := false
    oom := false
    preludeCount := 0
    preludeExhausted := false
    preludeMax := if maxNew < 0 then 0 else if maxNew > 1 then maxNew / 2 else maxNew } }

/-- `engine_generate_spec` with the `cdoc_release` of its caller. -/
def generateSpec (s : Setup V σ κ Row Fold Logits) (e : Engine V σ κ Row Fold)
    (logits : Logits) (maxNew : Int) : Engine V σ κ Row Fold × Nat :=
  let out := specLoop s maxNew (s.m.nCtx - e.pos + 1) (specBegin maxNew e) logits none 0
  ({ out.1 with gen := cdocRelease out.1.gen }, out.2)

end GridcoreRunner.Generation
