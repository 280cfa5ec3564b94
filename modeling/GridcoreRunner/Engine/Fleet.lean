import GridcoreRunner.Runs
import GridcoreRunner.Engine.PrefixCoherence

/-!
# Engines that share a prefix cache

A fleet is any number of engines, each on a model named by its key, over one
prefix cache. An event is one call into `engine.c`; between a step that handed
out a row and the end of that step's business only its forward or the end of the
generation may follow, as `engine.h` asks of its callers. Every other order is
allowed.
-/

namespace GridcoreRunner.Generation

set_option autoImplicit false

open GridcoreRunner.Causal GridcoreRunner.Runs

variable {Id Key V σ κ Row Fold Logits : Type*}

/-- An engine's fixed part: its models and request configuration, the key and
the byte sizes of its cache rows, and whether the model is on a device. -/
structure Slot (Key V σ κ Row Fold Logits : Type*) where
  setup : Setup V σ κ Row Fold Logits
  key : Key
  shape : Shape
  gpu : Bool

/-- Equal keys name equal weights. -/
structure Fleet (Id Key V σ κ Row Fold Logits : Type*) where
  slot : Id → Slot Key V σ κ Row Fold Logits
  weights : Key → Weights Nat Row Fold Logits
  keyed : ∀ i, weights (slot i).key = (slot i).setup.m.w

/-- Whether a generation owes a forward, or has performed the last one. -/
inductive Session
  | settled
  | owed (tok pos : Nat)
  | forwarded
  deriving DecidableEq

/-- The session a step leaves. -/
def Session.after : Option (Nat × Nat) → Session
  | some (tok, pos) => .owed tok pos
  | none => .settled

structure World (Id Key V σ κ Row Fold : Type*) where
  pfx : Pfx Key Row Fold
  engine : Id → Engine V σ κ Row Fold
  session : Id → Session

/-- One call on one engine. `stale` is what the host fold buffers of a device
model hold. -/
inductive Call (Fold Logits : Type*)
  | reset
  | thinkStarted
  | rewind (toks : List Nat)
  | feed (polls : List Bool) (toks : List Nat)
  | reuse (now : Int) (toks : List Nat)
  | publish (now : Int) (stale : Fold) (toks : List Nat)
  | begin (maxNew : Int)
  | step (logits : Logits)
  | forward
  | finish
  | speculate (logits : Logits) (maxNew : Int)

inductive Event (Id Fold Logits : Type*)
  | call (i : Id) (call : Call Fold Logits)
  | configure (budget : Nat) (ttl : Int)
  | clear

def hostFold (gpu : Bool) (stale : Fold) (kv : Kv Row Fold) : Fold :=
  if gpu then stale else kv.fold

variable [DecidableEq Key]

/-- Calls made outside a handed-out row. A publish names tokens the engine has
fed. -/
def Slot.settledCall (slot : Slot Key V σ κ Row Fold Logits) (pfx : Pfx Key Row Fold)
    (e : Engine V σ κ Row Fold) :
    Call Fold Logits → Option (Pfx Key Row Fold × Engine V σ κ Row Fold × Session)
  | .reset => some (pfx, engineReset slot.setup e, .settled)
  | .thinkStarted => some (pfx, engineThinkStarted slot.setup e, .settled)
  | .rewind toks => some (pfx, (engineRewind slot.setup e toks).1, .settled)
  | .feed polls toks => some (pfx, (feedPrompt slot.setup polls e toks).1, .settled)
  | .reuse now toks =>
      let out := enginePrefixReuse slot.setup slot.shape slot.key slot.gpu pfx now e toks
      some (out.1, out.2.1, .settled)
  | .publish now stale toks =>
      if toks.length ≤ e.pos → toks = e.tokens.take toks.length then
        some (enginePrefixPublish slot.shape slot.key pfx now e
          (hostFold slot.gpu stale e.kv) toks, e, .settled)
      else none
  | .begin maxNew => some (pfx, engineGenBegin maxNew e, .settled)
  | .step logits =>
      let out := engineGenStep slot.setup e logits
      some (pfx, out.1, Session.after out.2)
  | .forward => none
  | .finish => some (pfx, engineGenEnd slot.setup e, .settled)
  | .speculate logits maxNew => some (pfx, (generateSpec slot.setup e logits maxNew).1, .settled)

def Slot.call (slot : Slot Key V σ κ Row Fold Logits) (pfx : Pfx Key Row Fold)
    (e : Engine V σ κ Row Fold) (session : Session) (call : Call Fold Logits) :
    Option (Pfx Key Row Fold × Engine V σ κ Row Fold × Session) :=
  match session with
  | .settled => slot.settledCall pfx e call
  | .owed tok pos =>
      match call with
      | .forward => some (pfx, (forwardPending slot.setup e tok pos).1, .forwarded)
      | .finish => some (pfx, engineGenEnd slot.setup e, .settled)
      | _ => none
  | .forwarded =>
      match call with
      | .step logits => slot.settledCall pfx e (.step logits)
      | .finish => some (pfx, engineGenEnd slot.setup e, .settled)
      | _ => none

variable [DecidableEq Id]

def Fleet.fire (fleet : Fleet Id Key V σ κ Row Fold Logits) (w : World Id Key V σ κ Row Fold) :
    Event Id Fold Logits → Option (World Id Key V σ κ Row Fold)
  | .call i call =>
      ((fleet.slot i).call w.pfx (w.engine i) (w.session i) call).map fun out =>
        { pfx := out.1
          engine := Function.update w.engine i out.2.1
          session := Function.update w.session i out.2.2 }
  | .configure budget ttl => some { w with pfx := prefixCacheConfigure w.pfx budget ttl }
  | .clear => some { w with pfx := prefixCacheClear w.pfx }

/-- Fresh engines and an empty cache. -/
def Fleet.Start (_ : Fleet Id Key V σ κ Row Fold Logits) (w : World Id Key V σ κ Row Fold) : Prop :=
  w.pfx.entries = [] ∧ ∀ i, (w.engine i).pos = 0 ∧ (w.engine i).dpos = 0 ∧
    (w.engine i).pendingPos = none ∧ w.session i = .settled

/-- The condition on one event: a recurrent engine stores snapshots whole, and
its generation is not ended between a performed forward and the next step. -/
def Fleet.Meets (fleet : Fleet Id Key V σ κ Row Fold Logits) (w : World Id Key V σ κ Row Fold) :
    Event Id Fold Logits → Prop
  | .call i (.publish now _ toks) =>
      PublishOk (fleet.slot i).setup (fleet.slot i).shape (fleet.slot i).key (fleet.slot i).gpu
        w.pfx now (w.engine i) toks
  | .call i .finish => (fleet.slot i).setup.m.w.recurrent = true → w.session i ≠ .forwarded
  | _ => True

/-! ## The handed-out row through each call -/

section Pending
variable {s : Setup V σ κ Row Fold Logits} {e : Engine V σ κ Row Fold}

theorem think_started_pending (e : Engine V σ κ Row Fold) :
    (engineThinkStarted s e).pendingPos = e.pendingPos := by
  unfold engineThinkStarted
  split <;> rfl

theorem rewind_pending (e : Engine V σ κ Row Fold) (toks : List Nat) :
    (engineRewind s e toks).1.pendingPos = e.pendingPos := by
  simp only [engineRewind]
  split
  · split <;> simp
  · simp

theorem feed_pending (fuel : Nat) (polls : List Bool) (e : Engine V σ κ Row Fold)
    (toks : List Nat) : (engineFeed s fuel polls e toks).1.pendingPos = e.pendingPos := by
  induction fuel generalizing polls e toks with
  | zero => rfl
  | succ fuel induction =>
      simp only [engineFeed]
      split
      · rfl
      · split
        · rfl
        · split
          · rfl
          · exact induction _ _ _

omit [DecidableEq Id] in
theorem reuse_pending (shape : Shape) (key : Key) (gpu : Bool) (pfx : Pfx Key Row Fold)
    (now : Int) (e : Engine V σ κ Row Fold) (toks : List Nat) :
    (enginePrefixReuse s shape key gpu pfx now e toks).2.1.pendingPos = e.pendingPos := by
  have rewound := rewind_pending (s := s) e toks
  simp only [enginePrefixReuse]
  split
  · exact rewound
  · split
    · exact rewound
    · split
      · exact rewound
      · exact rewound

theorem gen_step_none_pending (e : Engine V σ κ Row Fold) (logits : Logits)
    (ended : (engineGenStep s e logits).2 = none) :
    (engineGenStep s e logits).1.pendingPos = none := by
  simp only [engineGenStep] at ended ⊢
  split
  · rfl
  · next inside =>
    rw [if_neg inside] at ended
    split
    · rfl
    · next drawn =>
      simp only [drawn] at ended
      split
      · next more =>
        rw [if_pos more] at ended
        simp at ended
      · rfl

theorem gen_end_pending (e : Engine V σ κ Row Fold) : (engineGenEnd s e).pendingPos = none := by
  cases pending : e.pendingPos with
  | none => rw [gen_end_none pending]; exact pending
  | some pos => rw [gen_end_some pending]

end Pending

/-! ## The invariant of a fleet -/

/-- What an engine owes its session. -/
def SessionSound (s : Setup V σ κ Row Fold Logits) (e : Engine V σ κ Row Fold) : Session → Prop
  | .settled => Sound s e ∧ e.pendingPos = none
  | .owed tok pos => Owed s e tok pos
  | .forwarded => Sound s e ∧ ∃ pos, e.pendingPos = some pos ∧ pos ≤ e.pos

structure Fleet.Sound (fleet : Fleet Id Key V σ κ Row Fold Logits)
    (w : World Id Key V σ κ Row Fold) : Prop where
  cache : PfxSound fleet.weights w.pfx
  engines : ∀ i, SessionSound (fleet.slot i).setup (w.engine i) (w.session i)

section Calls
variable {slot : Slot Key V σ κ Row Fold Logits} {weights : Key → Weights Nat Row Fold Logits}
variable {pfx : Pfx Key Row Fold} {e : Engine V σ κ Row Fold}

omit [DecidableEq Key] [DecidableEq Id] in
theorem step_session_sound {s : Setup V σ κ Row Fold Logits} (h : Sound s e) (logits : Logits) :
    SessionSound s (engineGenStep s e logits).1 (Session.after (engineGenStep s e logits).2) := by
  have stepped := gen_step_sound h logits
  have pending := gen_step_none_pending (s := s) e logits
  generalize engineGenStep s e logits = out at stepped pending
  obtain ⟨next, handed⟩ := out
  cases handed with
  | none => exact ⟨stepped.1 rfl, pending rfl⟩
  | some row => exact stepped.2 row.1 row.2 rfl

omit [DecidableEq Id] in
/-- One lemma for each call made outside a handed-out row. -/
theorem settled_call_sound (same : weights slot.key = slot.setup.m.w)
    (cache : PfxSound weights pfx) (h : Sound slot.setup e) (settled : e.pendingPos = none)
    {call : Call Fold Logits} {out : Pfx Key Row Fold × Engine V σ κ Row Fold × Session}
    (met : ∀ now stale toks, call = .publish now stale toks →
      PublishOk slot.setup slot.shape slot.key slot.gpu pfx now e toks)
    (called : slot.settledCall pfx e call = some out) :
    PfxSound weights out.1 ∧ SessionSound slot.setup out.2.1 out.2.2 := by
  cases call with
  | reset =>
      obtain rfl := Option.some.inj called
      exact ⟨cache, reset_sound, settled⟩
  | thinkStarted =>
      obtain rfl := Option.some.inj called
      exact ⟨cache, think_started_sound h, (think_started_pending e).trans settled⟩
  | rewind toks =>
      obtain rfl := Option.some.inj called
      exact ⟨cache, rewind_sound h toks, (rewind_pending e toks).trans settled⟩
  | feed polls toks =>
      obtain rfl := Option.some.inj called
      exact ⟨cache, feed_sound _ polls h toks, (feed_pending _ polls e toks).trans settled⟩
  | reuse now toks =>
      obtain rfl := Option.some.inj called
      have reused := prefix_reuse_sound slot.shape slot.gpu now toks same cache h
      exact ⟨reused.1, reused.2.1, (reuse_pending _ _ _ _ now e toks).trans settled⟩
  | publish now stale toks =>
      simp only [Slot.settledCall] at called
      split at called
      · next held =>
        obtain rfl := Option.some.inj called
        apply And.intro _ ⟨h, settled⟩
        apply publish_sound same cache h held _ (met now stale toks rfl)
        intro host
        simp [hostFold, host]
      · simp at called
  | begin maxNew =>
      obtain rfl := Option.some.inj called
      exact ⟨cache, gen_begin_sound maxNew h, rfl⟩
  | step logits =>
      obtain rfl := Option.some.inj called
      exact ⟨cache, step_session_sound h logits⟩
  | forward => simp [Slot.settledCall] at called
  | finish =>
      obtain rfl := Option.some.inj called
      exact ⟨cache, gen_end_sound h settled, gen_end_pending e⟩
  | speculate logits maxNew =>
      obtain rfl := Option.some.inj called
      exact ⟨cache, generate_spec_sound h logits maxNew,
        (generate_spec_pending e logits maxNew).trans settled⟩

omit [DecidableEq Id] in
theorem call_sound (same : weights slot.key = slot.setup.m.w) (cache : PfxSound weights pfx)
    {session : Session} (h : SessionSound slot.setup e session) {call : Call Fold Logits}
    {out : Pfx Key Row Fold × Engine V σ κ Row Fold × Session}
    (met : ∀ now stale toks, call = .publish now stale toks →
      PublishOk slot.setup slot.shape slot.key slot.gpu pfx now e toks)
    (ended : call = .finish → slot.setup.m.w.recurrent = true → session ≠ .forwarded)
    (called : slot.call pfx e session call = some out) :
    PfxSound weights out.1 ∧ SessionSound slot.setup out.2.1 out.2.2 := by
  cases session with
  | settled => exact settled_call_sound same cache h.1 h.2 met called
  | owed tok pos =>
      cases call <;> simp only [Slot.call, Option.some.injEq, reduceCtorEq] at called
      case forward =>
        subst called
        refine ⟨cache, forward_pending_sound h, pos, h.pending, ?_⟩
        simp only [forwardPending, h.pos_eq]
        omega
      case finish =>
        subst called
        exact ⟨cache, gen_end_owed h, gen_end_pending e⟩
  | forwarded =>
      obtain ⟨sound, pos, pending, le⟩ := h
      cases call <;> simp only [Slot.call, Option.some.injEq, reduceCtorEq] at called
      case step logits =>
        obtain rfl := Option.some.inj called
        exact ⟨cache, step_session_sound sound logits⟩
      case finish =>
        subst called
        have plain : slot.setup.m.w.recurrent = false := by
          cases rec : slot.setup.m.w.recurrent with
          | false => rfl
          | true => exact absurd rfl (ended rfl rec)
        exact ⟨cache, gen_end_forwarded sound plain pending le, gen_end_pending e⟩

end Calls

omit [DecidableEq Key] [DecidableEq Id] in
theorem start_sound (fleet : Fleet Id Key V σ κ Row Fold Logits)
    (w : World Id Key V σ κ Row Fold) (begun : fleet.Start w) : fleet.Sound w := by
  constructor
  · intro p member
    rw [begun.1] at member
    simp at member
  · intro i
    obtain ⟨pos, dpos, pending, session⟩ := begun.2 i
    rw [session]
    refine ⟨⟨?_, by omega, ?_⟩, pending⟩
    · rw [Engine.tokens, pos]
      exact coherent_nil
    · intro d _
      rw [Engine.draftTokens, dpos]
      exact coherent_nil

theorem fire_sound (fleet : Fleet Id Key V σ κ Row Fold Logits)
    (w next : World Id Key V σ κ Row Fold) (event : Event Id Fold Logits) (h : fleet.Sound w)
    (met : fleet.Meets w event) (fired : fleet.fire w event = some next) : fleet.Sound next := by
  cases event with
  | call i call =>
      obtain ⟨out, called, rfl⟩ := Option.map_eq_some_iff.mp fired
      have kept := call_sound (fleet.keyed i) h.cache (h.engines i)
        (by rintro now stale toks rfl; exact met) (by rintro rfl; exact met) called
      apply Fleet.Sound.mk kept.1
      intro j
      by_cases same : j = i
      · subst same
        simpa using kept.2
      · simpa [Function.update_of_ne same] using h.engines j
  | configure budget ttl =>
      obtain rfl := Option.some.inj fired
      exact ⟨configure_sound h.cache budget ttl, h.engines⟩
  | clear =>
      obtain rfl := Option.some.inj fired
      exact ⟨by intro p member; simp [prefixCacheClear] at member, h.engines⟩

/-- Every world a fleet reaches under the condition is sound. -/
theorem fleet_sound {fleet : Fleet Id Key V σ κ Row Fold Logits}
    {w : World Id Key V σ κ Row Fold} (run : Reaches fleet.Start fleet.fire fleet.Meets w) :
    fleet.Sound w :=
  run.invariant (start_sound fleet) (fire_sound fleet)

end GridcoreRunner.Generation
