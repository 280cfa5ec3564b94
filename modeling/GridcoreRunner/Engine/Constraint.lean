import Mathlib.Algebra.GroupWithZero.Nat
import Mathlib.Logic.Function.Basic
import Mathlib.Tactic.Common

/-!
# The constraint layer of one generation

`Gen` is the part of an engine that a sampled token reads and writes: the sampler,
the payload validator, the thinking prelude, the recorded document and the
callback. Nothing here touches the KV cache or the position. The schema
validator and the JSON validator answer the same questions, so one `Payload`
stands for whichever of `e->sv` and `e->jv` the request installs.
-/

namespace GridcoreRunner.Generation

set_option autoImplicit false

abbrev Bytes := List UInt8

/-- Which constraint the request installed: neither, `json_mode`, or a schema
(a schema overrides `json_mode`). -/
inductive Mode
  | none | json | schema
  deriving DecidableEq, Repr

/-- `constraint_phase`. -/
inductive Phase
  | probe | think | afterThink | output
  deriving DecidableEq, Repr

/-- What the constraint layer asks of a validator. -/
structure Payload (V : Type*) where
  init : V
  feed : V → Bytes → Option V
  done : V → Bool
  close : V → Nat → Bytes
  wsIsContent : V → Bool
  atRawTail : V → Bool

/-- What `sample_pick` returns: a token, `-1` or `-2`. -/
inductive Pick
  | token (id : Nat)
  | noCandidate
  | outOfMemory
  deriving DecidableEq, Repr

/-- The request, the tokenizer, the sampler and the callback. `think_open` and
`think_close` come from the model; `allow_ws` is `RUNNER_SCHEMA_ALLOW_WS`. A
callback sees `constraint_closing`, answers whether it aborts, and may report a
shortfall through `engine_constraint_truncate`. -/
structure Config (V σ κ Logits : Type*) where
  mode : Mode
  payload : Payload V
  thinkOpen : Option Bytes
  thinkClose : Option Bytes
  thinkEndId : Option Nat
  emitThinkPrelude : Bool
  constraintIncludesPrelude : Bool
  allowWs : Bool
  stopIds : List Nat
  ignoreEos : Bool
  decode : Nat → Bytes
  isControl : Nat → Bool
  raw : Nat → Option Bytes
  samplePick : σ → Logits → (Nat → Bool) → Pick × σ
  samplerAccept : σ → Nat → σ
  samplerReset : σ → σ
  callback : κ → Bool → Bytes → κ × Bool × Nat

structure Gen (V σ κ : Type*) where
  smp : σ
  cbState : κ
  /-- Every callback call so far: `constraint_closing` and the bytes. -/
  calls : List (Bool × Bytes)
  phase : Phase
  tagPossible : Bool
  tagMatch : Nat
  closeMatch : Nat
  pv : V
  cdoc : Bytes
  cdocRec : Bool
  closing : Bool
  hitStop : Bool
  oom : Bool
  preludeMax : Int
  preludeCount : Int
  preludeExhausted : Bool

variable {V σ κ Logits : Type*}

namespace Config

def schema (c : Config V σ κ Logits) : Bool := c.mode == .schema

def constrained (c : Config V σ κ Logits) : Bool := c.mode != .none

def isStop (c : Config V σ κ Logits) (id : Nat) : Bool := c.stopIds.contains id

end Config

/-- `sizeof` bound of `cdoc`: growth stops once the capacity would pass 2^27. -/
def cdocLimit : Nat := 2 ^ 27

def cdocPut (g : Gen V σ κ) (bytes : Bytes) : Gen V σ κ :=
  if !g.cdocRec || bytes.isEmpty then g
  else if g.cdoc.length + bytes.length > cdocLimit then { g with cdocRec := false }
  else { g with cdoc := g.cdoc ++ bytes }

def cdocRelease (g : Gen V σ κ) : Gen V σ κ := { g with cdoc := [], cdocRec := true }

def constraintReset (c : Config V σ κ Logits) (g : Gen V σ κ) : Gen V σ κ :=
  let probe := !c.constraintIncludesPrelude && c.thinkOpen.isSome && c.thinkClose.isSome
  { g with
    phase := if probe then .probe else .output
    tagPossible := probe
    tagMatch := 0
    closeMatch := 0 }

def isWs (b : UInt8) : Bool := b == 32 || b == 9 || b == 10 || b == 13

def allInsignificantWs (c : Config V σ κ Logits) (pv : V) (bytes : Bytes) : Bool :=
  !c.allowWs && !bytes.isEmpty && !c.payload.wsIsContent pv && bytes.all isWs

/-- Advance a tag-prefix match by one byte, keeping the longest suffix that can
still begin the tag. -/
def tagAdvance (tag : Bytes) (matched : Nat) (b : UInt8) : Nat :=
  let seen := tag.take matched ++ [b]
  ((List.range (min (matched + 1) tag.length + 1)).reverse.find? fun k =>
    k == 0 || seen.drop (matched + 1 - k) == tag.take k).getD 0

/-- What `constraint_payload_feed` and `constraint_payload_trial` ask. -/
def payloadTrial (c : Config V σ κ Logits) (pv : V) (bytes : Bytes) : Option V :=
  if c.schema && allInsignificantWs c pv bytes then none else c.payload.feed pv bytes

def constraintPayloadFeed (c : Config V σ κ Logits) (g : Gen V σ κ) (bytes : Bytes) :
    Option (Gen V σ κ) :=
  (payloadTrial c g.pv bytes).map fun pv => cdocPut { g with pv } bytes

def constraintPayloadReset (c : Config V σ κ Logits) (g : Gen V σ κ) : Gen V σ κ :=
  { g with pv := c.payload.init, cdoc := [] }

/-- `constraint_feed` writes its engine also on the paths where it refuses the
token, so the state comes back beside the verdict. `visible` is the first byte
of the token that belongs to the payload. -/
structure FeedResult (V σ κ : Type*) where
  gen : Gen V σ κ
  ok : Bool
  visible : Option Nat

/-- The `CP_OUTPUT` and `CP_AFTER_THINK` branches. -/
def feedOutput (c : Config V σ κ Logits) (g : Gen V σ κ) (bytes : Bytes) : FeedResult V σ κ :=
  match constraintPayloadFeed c g bytes with
  | some g' => ⟨g', true, some 0⟩
  | none => ⟨g, false, none⟩

/-- The `CP_THINK` loop from byte `at_` on. -/
def feedThinkFrom (c : Config V σ κ Logits) (close : Bytes) (bytes : Bytes) :
    Gen V σ κ → Nat → Bytes → FeedResult V σ κ
  | g, _, [] => ⟨g, true, none⟩
  | g, index, b :: rest =>
      let matched := tagAdvance close g.closeMatch b
      let g := { g with closeMatch := matched }
      if matched ≠ close.length then feedThinkFrom c close bytes g (index + 1) rest
      else
        let g := constraintPayloadReset c { g with phase := .output, closeMatch := 0 }
        if rest.isEmpty then ⟨g, true, none⟩
        else
          match constraintPayloadFeed c g rest with
          | some g' => ⟨g', true, some (index + 1)⟩
          | none => ⟨g, false, none⟩

def feedThink (c : Config V σ κ Logits) (g : Gen V σ κ) (bytes : Bytes) : FeedResult V σ κ :=
  feedThinkFrom c (c.thinkClose.getD []) bytes g 0 bytes

/-- The `CP_PROBE` scan of the opening tag: `some rest` behind a completed tag,
or the match it leaves and whether the tag is still possible. -/
def probeScan (open_ : Bytes) : Nat → Bytes → (Option Bytes) × Bool × Nat
  | matched, [] => (none, true, matched)
  | matched, b :: rest =>
      if matched == 0 && isWs b then probeScan open_ matched rest
      else if open_[matched]? ≠ some b then (none, false, matched)
      else if matched + 1 ≠ open_.length then probeScan open_ (matched + 1) rest
      else (some rest, false, 0)

def feedProbe (c : Config V σ κ Logits) (g : Gen V σ κ) (bytes : Bytes) : FeedResult V σ κ :=
  let payloadOk := c.payload.feed g.pv bytes
  let scan := if g.tagPossible then probeScan (c.thinkOpen.getD []) g.tagMatch bytes
    else (none, false, g.tagMatch)
  match scan with
  | (some rest, _, _) =>
      let g := constraintPayloadReset c
        { g with phase := .think, tagPossible := false, tagMatch := 0, closeMatch := 0 }
      if rest.isEmpty then ⟨g, true, none⟩
      else
        let sub := feedThink c g rest
        ⟨sub.gen, sub.ok, if sub.ok then sub.visible.map (bytes.length - rest.length + ·) else none⟩
  | (none, tagOk, matched) =>
      if payloadOk.isNone && !tagOk then ⟨g, false, none⟩
      else
        let g := match payloadOk with
          | some pv => cdocPut { g with pv } bytes
          | none => g
        let g := { g with tagPossible := tagOk, tagMatch := if tagOk then matched else 0 }
        if tagOk then ⟨g, true, none⟩ else ⟨{ g with phase := .output }, true, some 0⟩

def constraintFeed (c : Config V σ κ Logits) (g : Gen V σ κ) (bytes : Bytes) :
    FeedResult V σ κ :=
  match g.phase with
  | .output => feedOutput c g bytes
  | .afterThink => feedOutput c { g with phase := .output } bytes
  | .think => feedThink c g bytes
  | .probe => feedProbe c g bytes

def constraintDone (c : Config V σ κ Logits) (g : Gen V σ κ) : Bool :=
  g.phase == .output && c.payload.done g.pv

def constraintSpellingOk (c : Config V σ κ Logits) (g : Gen V σ κ) (id : Nat) : Bool :=
  c.schema && g.phase == .output && !c.isStop id && !c.payload.wsIsContent g.pv &&
    match c.raw id with
    | none => false
    | some spelling => !spelling.isEmpty && (payloadTrial c g.pv spelling).isSome

def constraintTokenOk (c : Config V σ κ Logits) (g : Gen V σ κ) (id : Nat) : Bool :=
  if c.isStop id || c.isControl id then
    g.phase == .think || g.phase == .afterThink || constraintDone c g ||
      (c.isStop id && c.schema && g.phase == .output && c.payload.atRawTail g.pv) ||
      constraintSpellingOk c g id
  else
    let bytes := c.decode id
    if bytes.isEmpty then
      g.phase == .think || constraintDone c g || constraintSpellingOk c g id
    else if g.phase == .output then (payloadTrial c g.pv bytes).isSome
    else (constraintFeed c { g with cdocRec := false } bytes).ok

/-- The filter handed to `sample_pick`; an unconstrained request has none. -/
def sampleOk (c : Config V σ κ Logits) (g : Gen V σ κ) : Nat → Bool :=
  if c.constrained then constraintTokenOk c g else fun _ => true

/-- `engine_constraint_truncate`. -/
def constraintTruncate (c : Config V σ κ Logits) (g : Gen V σ κ) (count : Nat) : Gen V σ κ :=
  if count = 0 || !c.constrained || !g.cdocRec || g.cdoc.isEmpty then g
  else
    let kept := g.cdoc.take (g.cdoc.length - count)
    let g := constraintPayloadReset c g
    if kept.isEmpty then g
    else
      match c.payload.feed g.pv kept with
      | some pv => { g with pv, cdoc := kept }
      | none => g

/-- One callback call; the callback may truncate before it returns. -/
def emit (c : Config V σ κ Logits) (g : Gen V σ κ) (bytes : Bytes) : Gen V σ κ × Bool :=
  let (cbState, abort, shortfall) := c.callback g.cbState g.closing bytes
  let g := { g with cbState, calls := g.calls ++ [(g.closing, bytes)] }
  (constraintTruncate c g shortfall, abort)

def constraintAccept (c : Config V σ κ Logits) (g : Gen V σ κ) (bytes : Bytes) :
    Gen V σ κ × Bool :=
  let fed := constraintFeed c g bytes
  if !fed.ok then (fed.gen, true)
  else
    let hidden := fed.visible.getD bytes.length
    let (g, rc) := if hidden > 0 && c.emitThinkPrelude then emit c fed.gen (bytes.take hidden)
      else (fed.gen, false)
    if rc then (g, true)
    else if hidden < bytes.length then emit c g (bytes.drop hidden)
    else (g, false)

def constraintFinishThink (c : Config V σ κ Logits) (g : Gen V σ κ) : Gen V σ κ × Bool :=
  let (g, rc) := if g.phase == .think then
      let (g, rc) := match c.emitThinkPrelude, c.thinkClose with
        | true, some close => emit c g close
        | _, _ => (g, false)
      ({ g with phase := .afterThink }, rc)
    else ({ g with phase := .output }, false)
  (constraintPayloadReset c { g with tagPossible := false, tagMatch := 0, closeMatch := 0 }, rc)

def constraintControlAccept (c : Config V σ κ Logits) (g : Gen V σ κ) (tok : Nat) :
    Gen V σ κ × Bool :=
  if g.phase ≠ .think || some tok ≠ c.thinkEndId then (g, false) else constraintFinishThink c g

/-- Sizes of the buffers `constraint_close` hands the two closers. -/
def closeCap (c : Config V σ κ Logits) : Nat := if c.schema then 4096 else 600

def constraintClose (c : Config V σ κ Logits) (g : Gen V σ κ) : Gen V σ κ :=
  let g := { g with closing := true }
  let g := if c.constrained && g.phase != .output then
      { constraintPayloadReset c g with phase := .output }
    else g
  let g := if c.constrained && !c.payload.done g.pv then
      let tail := c.payload.close g.pv (closeCap c)
      if tail.isEmpty then g else (emit c g tail).1
    else g
  { cdocRelease g with closing := false }

end GridcoreRunner.Generation
