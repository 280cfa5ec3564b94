import GridcoreRunner.Engine.Speculative

/-!
# KV and history coherence of one engine

`Sound` is the property every call must leave behind: the cache rows below `pos`
are those a cold run of `hist[0..pos)` computes, the recurrent fold is the fold
of the same tokens, and the draft model's rows below `dpos` are those of
`hist[0..dpos)`. Between a step and its forward one row is owed.
-/

namespace GridcoreRunner.Generation

set_option autoImplicit false

open GridcoreRunner.Causal

variable {V σ κ Row Fold Logits : Type*}

/-- The draft cache, where a draft model is installed. -/
def DraftSound (s : Setup V σ κ Row Fold Logits) (e : Engine V σ κ Row Fold) : Prop :=
  ∀ d, s.dm = some d → Coherent d.w e.dkv e.draftTokens

structure Sound (s : Setup V σ κ Row Fold Logits) (e : Engine V σ κ Row Fold) : Prop where
  target : Coherent s.m.w e.kv e.tokens
  draftLe : e.dpos ≤ e.pos
  draft : DraftSound s e

/-- After `engine_gen_step` handed out `(tok, pos)` and before its forward. -/
structure Owed (s : Setup V σ κ Row Fold Logits) (e : Engine V σ κ Row Fold) (tok pos : Nat) :
    Prop where
  pos_eq : e.pos = pos + 1
  pending : e.pendingPos = some pos
  token : e.hist pos = tok
  target : Coherent s.m.w e.kv (cells e.hist pos)
  draftLe : e.dpos ≤ pos
  draft : DraftSound s e

/-- Two engines that agree on the cached part: everything soundness reads. -/
structure SameCache (e e' : Engine V σ κ Row Fold) : Prop where
  pos : e'.pos = e.pos
  hist : e'.hist = e.hist
  kv : e'.kv = e.kv
  dpos : e'.dpos = e.dpos
  dkv : e'.dkv = e.dkv

variable {s : Setup V σ κ Row Fold Logits} {e e' : Engine V σ κ Row Fold}

theorem Sound.of_same (h : Sound s e) (same : SameCache e e') : Sound s e' := by
  obtain ⟨target, draftLe, draft⟩ := h
  refine ⟨?_, by rw [same.pos, same.dpos]; exact draftLe, ?_⟩
  · rw [Engine.tokens, same.pos, same.hist, same.kv]
    exact target
  · intro d found
    rw [Engine.draftTokens, same.dpos, same.hist, same.dkv]
    exact draft d found

theorem draft_sound_congr (h : DraftSound s e) (dpos : e'.dpos = e.dpos) (dkv : e'.dkv = e.dkv)
    (hist : ∀ index, index < e.dpos → e'.hist index = e.hist index) : DraftSound s e' := by
  intro d found
  rw [Engine.draftTokens, dpos, dkv, cells_congr hist]
  exact h d found

/-! ## Rewinding the two caches -/

theorem coherent_take_of_not_recurrent {w : Weights Nat Row Fold Logits} {kv : Kv Row Fold}
    {tokens : List Nat} (h : Coherent w kv tokens) (plain : w.recurrent = false) (count : Nat) :
    Coherent w kv (tokens.take count) :=
  ⟨h.rows.take count, fun rec => by simp [plain] at rec, fun rec => by simp [plain] at rec⟩

/-- A draft clamp is always sound: an attention draft is sliced, a recurrent one
starts over. -/
theorem draft_sound_rewind (target : Nat) (draft : DraftSound s e) :
    DraftSound s (dposRewind s e target) := by
  unfold dposRewind
  split
  · exact draft
  · next above =>
    intro d found
    have same := draft d found
    simp only [Engine.draftTokens, found, Option.map_some, Option.getD_some]
    by_cases rec : d.w.recurrent = true
    · simpa [rec] using coherent_nil
    · have clamped := coherent_take_of_not_recurrent same (by simpa using rec) target
      rw [Engine.draftTokens, cells_take _ _ _ (by omega)] at clamped
      simpa [rec] using clamped

@[simp] theorem dpos_rewind_pos (target : Nat) : (dposRewind s e target).pos = e.pos := by
  unfold dposRewind; split <;> rfl

@[simp] theorem dpos_rewind_hist (target : Nat) : (dposRewind s e target).hist = e.hist := by
  unfold dposRewind; split <;> rfl

@[simp] theorem dpos_rewind_kv (target : Nat) : (dposRewind s e target).kv = e.kv := by
  unfold dposRewind; split <;> rfl

@[simp] theorem dpos_rewind_gen (target : Nat) : (dposRewind s e target).gen = e.gen := by
  unfold dposRewind; split <;> rfl

@[simp] theorem dpos_rewind_pending (target : Nat) :
    (dposRewind s e target).pendingPos = e.pendingPos := by
  unfold dposRewind; split <;> rfl

theorem dpos_rewind_le (target : Nat) : (dposRewind s e target).dpos ≤ target := by
  unfold dposRewind
  split
  · assumption
  · simp only
    split <;> omega

theorem sound_of_rewind (target : Nat) (cache : Coherent s.m.w e.kv e.tokens)
    (draft : DraftSound s e) (le : target ≤ e.pos) : Sound s (dposRewind s e target) := by
  refine ⟨?_, ?_, draft_sound_rewind target draft⟩
  · simpa [Engine.tokens] using cache
  · have := dpos_rewind_le (s := s) (e := e) target
    rw [dpos_rewind_pos]
    omega

theorem keep_length_le (hist : Nat → Nat) (fuel at_ : Nat) (toks : List Nat) :
    keepLength hist fuel at_ toks ≤ fuel := by
  induction fuel generalizing at_ toks with
  | zero => match toks with
    | [] | [_] | _ :: _ :: _ => simp [keepLength]
  | succ fuel induction =>
      match toks with
      | [] | [_] => simp [keepLength]
      | tok :: tok' :: toks =>
          simp only [keepLength]
          split
          · have := induction (at_ + 1) (tok' :: toks)
            omega
          · omega

theorem keep_length_lt (hist : Nat → Nat) (fuel at_ : Nat) (toks : List Nat) :
    keepLength hist fuel at_ toks ≤ toks.length - 1 := by
  induction fuel generalizing at_ toks with
  | zero => match toks with
    | [] | [_] | _ :: _ :: _ => simp [keepLength]
  | succ fuel induction =>
      match toks with
      | [] | [_] => simp [keepLength]
      | tok :: tok' :: toks =>
          simp only [keepLength]
          split
          · have := induction (at_ + 1) (tok' :: toks)
            simp only [List.length_cons] at *
            omega
          · omega

theorem keep_length_agrees (hist : Nat → Nat) (fuel at_ : Nat) (toks : List Nat) :
    ∀ index, index < keepLength hist fuel at_ toks → toks[index]? = some (hist (at_ + index)) := by
  induction fuel generalizing at_ toks with
  | zero => match toks with
    | [] | [_] | _ :: _ :: _ => simp [keepLength]
  | succ fuel induction =>
      match toks with
      | [] | [_] => simp [keepLength]
      | tok :: tok' :: toks =>
          simp only [keepLength]
          split
          · next same =>
            intro index bound
            cases index with
            | zero => simp [same]
            | succ index =>
                have := induction (at_ + 1) (tok' :: toks) index (by omega)
                rw [List.getElem?_cons_succ, this]
                congr 2
                omega
          · intro index bound
            omega

/-- The kept tokens are the prompt's own. -/
theorem cells_keep_length (hist : Nat → Nat) (fuel : Nat) (toks : List Nat) :
    cells hist (keepLength hist fuel 0 toks) = toks.take (keepLength hist fuel 0 toks) := by
  have bound := keep_length_lt hist fuel 0 toks
  apply List.ext_getElem?
  intro index
  by_cases inside : index < keepLength hist fuel 0 toks
  · have agree := keep_length_agrees hist fuel 0 toks index inside
    rw [cells_get _ _ _ inside, List.getElem?_take_of_lt inside, agree, Nat.zero_add]
  · rw [List.getElem?_eq_none (by simp; omega), List.getElem?_eq_none (by simp; omega)]

theorem recurrent_restore_some {kv kv' : Kv Row Fold} {pos : Nat}
    (restored : recurrentRestore s.m kv pos = some kv') :
    s.m.w.recurrent = true ∧ ∃ fold, kv.snap = some (pos, fold) ∧ kv' = { kv with fold } := by
  unfold recurrentRestore at restored
  split at restored
  · next rec =>
    refine ⟨rec, ?_⟩
    cases found : kv.snap with
    | none => simp [found] at restored
    | some pair =>
        obtain ⟨position, fold⟩ := pair
        simp only [found] at restored
        split at restored
        · next same =>
          obtain rfl := same
          exact ⟨fold, rfl, (Option.some.inj restored).symm⟩
        · simp at restored
  · simp at restored

/-- Restoring a checkpoint of a coherent cache gives the cache of the shorter
sequence. -/
theorem restore_coherent {kv kv' : Kv Row Fold} {tokens : List Nat} {pos : Nat}
    (h : Coherent s.m.w kv tokens) (nonempty : tokens ≠ [])
    (restored : recurrentRestore s.m kv pos = some kv') :
    Coherent s.m.w kv' (tokens.take pos) := by
  obtain ⟨rec, fold, found, rfl⟩ := recurrent_restore_some restored
  obtain ⟨le, eq⟩ := h.snap rec nonempty pos fold found
  refine ⟨h.rows.take pos, fun _ _ => eq, ?_⟩
  intro _ _ position fold' found'
  obtain ⟨rfl, rfl⟩ : pos = position ∧ fold = fold' := by simpa [found] using found'
  refine ⟨by simp [le], ?_⟩
  rw [List.take_take, Nat.min_self]
  exact eq

/-! ## One lemma for each call -/

theorem reset_sound : Sound s (engineReset s e) :=
  ⟨coherent_nil, Nat.le_refl _, fun _ _ => coherent_nil⟩

theorem think_started_sound (h : Sound s e) : Sound s (engineThinkStarted s e) := by
  unfold engineThinkStarted
  split
  · exact h.of_same ⟨rfl, rfl, rfl, rfl, rfl⟩
  · exact h

theorem rewind_sound (h : Sound s e) (toks : List Nat) : Sound s (engineRewind s e toks).1 := by
  have bound := keep_length_le e.hist e.pos 0 toks
  set keep := keepLength e.hist e.pos 0 toks with keep_def
  have sliced : cells e.hist keep = e.tokens.take keep := (cells_take e.hist e.pos keep bound).symm
  have finish : ∀ (kv : Kv Row Fold) (kept : Nat), kept ≤ e.pos →
      Coherent s.m.w kv (cells e.hist kept) →
      Sound s { dposRewind s { e with kv, pos := kept } kept with
        gen := genReset s.c (dposRewind s { e with kv, pos := kept } kept).gen (toks.take kept) } := by
    intro kv kept le cache
    have rewound : Sound s (dposRewind s { e with kv, pos := kept } kept) :=
      sound_of_rewind kept cache (draft_sound_congr h.draft rfl rfl fun _ _ => rfl) (Nat.le_refl _)
    exact rewound.of_same ⟨rfl, rfl, rfl, rfl, rfl⟩
  simp only [engineRewind, ← keep_def]
  by_cases act : (s.m.w.recurrent && decide (keep < e.pos)) = true
  · obtain ⟨rec, short⟩ : s.m.w.recurrent = true ∧ keep < e.pos := by simpa using act
    simp only [act, if_true]
    cases restored : recurrentRestore s.m e.kv keep with
    | none => exact finish _ 0 (Nat.zero_le _) coherent_nil
    | some kv =>
        have nonempty : e.tokens ≠ [] := by
          intro empty
          have := congrArg List.length empty
          simp at this
          omega
        have cache := restore_coherent h.target nonempty restored
        rw [← sliced] at cache
        exact finish kv keep bound cache
  · simp only [act, Bool.false_eq_true, if_false]
    apply finish e.kv keep bound
    by_cases rec : s.m.w.recurrent = true
    · have full : keep = e.pos := by
        simp only [rec, Bool.true_and, decide_eq_true_eq, Nat.not_lt] at act
        omega
      rw [full]
      exact h.target
    · rw [sliced]
      exact coherent_take_of_not_recurrent h.target (by simpa using rec) keep

theorem feed_sound (fuel : Nat) (polls : List Bool) (h : Sound s e) (toks : List Nat) :
    Sound s (engineFeed s fuel polls e toks).1 := by
  induction fuel generalizing e polls toks with
  | zero => exact h
  | succ fuel induction =>
      simp only [engineFeed]
      split
      · exact h
      · have fed : Sound s { e with
            hist := blit e.hist e.pos (toks.take s.m.nBatch)
            kv := forwardBatch s.m.w e.kv (toks.take s.m.nBatch) e.pos
            gen := { e.gen with
              smp := (toks.take s.m.nBatch).foldl s.c.samplerAccept e.gen.smp }
            pos := e.pos + (toks.take s.m.nBatch).length } := by
          refine ⟨?_, by have := h.draftLe; simp only; omega, ?_⟩
          · have batch := forward_batch_coherent h.target (toks.take s.m.nBatch)
            rw [Engine.tokens_length] at batch
            simpa only [Engine.tokens, cells_blit] using batch
          · refine draft_sound_congr h.draft (by rfl) (by rfl) ?_
            intro index bound
            exact blit_below _ _ _ _ (by have := h.draftLe; omega)
        split
        · exact fed
        · split
          · exact fed
          · exact induction polls.tail fed _

theorem gen_begin_sound (maxNew : Int) (h : Sound s e) : Sound s (engineGenBegin maxNew e) :=
  h.of_same ⟨rfl, rfl, rfl, rfl, rfl⟩

/-- A step either leaves the caches alone or owes exactly one row. -/
theorem gen_step_sound (h : Sound s e) (logits : Logits) :
    ((engineGenStep s e logits).2 = none → Sound s (engineGenStep s e logits).1) ∧
      ∀ tok pos, (engineGenStep s e logits).2 = some (tok, pos) →
        Owed s (engineGenStep s e logits).1 tok pos := by
  simp only [engineGenStep]
  split
  · exact ⟨fun _ => h.of_same ⟨rfl, rfl, rfl, rfl, rfl⟩, by simp⟩
  · split
    · exact ⟨fun _ => h.of_same ⟨rfl, rfl, rfl, rfl, rfl⟩, by simp⟩
    · split
      · refine ⟨by simp, ?_⟩
        intro tok pos out
        obtain ⟨rfl, rfl⟩ : _ = tok ∧ e.pos = pos := by simpa using out
        refine ⟨rfl, rfl, by simp, ?_, h.draftLe, ?_⟩
        · simpa only [Engine.tokens, cells_update_above _ _ _ _ (Nat.le_refl e.pos)] using h.target
        · refine draft_sound_congr h.draft (by rfl) (by rfl) ?_
          intro index bound
          exact Function.update_of_ne (by have := h.draftLe; omega) _ _
      · exact ⟨fun _ => h.of_same ⟨rfl, rfl, rfl, rfl, rfl⟩, by simp⟩

theorem forward_pending_sound {tok pos : Nat} (h : Owed s e tok pos) :
    Sound s (forwardPending s e tok pos).1 := by
  refine ⟨?_, ?_, draft_sound_congr h.draft rfl rfl fun _ _ => rfl⟩
  · have next := forward_coherent h.target tok
    rw [cells_length] at next
    simpa only [forwardPending, Engine.tokens, h.pos_eq, cells_succ, h.token] using next
  · have := h.draftLe
    simp only [forwardPending, h.pos_eq]
    omega

theorem gen_end_some {pos : Nat} (pending : e.pendingPos = some pos) :
    engineGenEnd s e = { dposRewind s { e with pos } pos with
      pendingPos := none
      gen := constraintClose s.c e.gen } := by
  obtain ⟨_, _, _, _, _, _, _, _, _⟩ := e
  subst pending
  simp [engineGenEnd]

theorem gen_end_none (settled : e.pendingPos = none) :
    engineGenEnd s e = { e with gen := constraintClose s.c e.gen } := by
  simp [engineGenEnd, settled]

theorem gen_end_owed {tok pos : Nat} (h : Owed s e tok pos) : Sound s (engineGenEnd s e) := by
  have rewound : Sound s (dposRewind s { e with pos } pos) :=
    sound_of_rewind pos h.target (draft_sound_congr h.draft rfl rfl fun _ _ => rfl) (Nat.le_refl _)
  rw [gen_end_some h.pending]
  exact rewound.of_same ⟨rfl, rfl, rfl, rfl, rfl⟩

theorem gen_end_sound (h : Sound s e) (settled : e.pendingPos = none) :
    Sound s (engineGenEnd s e) := by
  rw [gen_end_none settled]
  exact h.of_same ⟨rfl, rfl, rfl, rfl, rfl⟩

/-- An attention-only target may also be ended right behind a forward: the row
is given back although it was computed. -/
theorem gen_end_forwarded (h : Sound s e) (plain : s.m.w.recurrent = false) {pos : Nat}
    (pending : e.pendingPos = some pos) (le : pos ≤ e.pos) : Sound s (engineGenEnd s e) := by
  have sliced : Coherent s.m.w e.kv (cells e.hist pos) := by
    rw [← cells_take e.hist e.pos pos le]
    exact coherent_take_of_not_recurrent h.target plain pos
  have rewound : Sound s (dposRewind s { e with pos } pos) :=
    sound_of_rewind pos sliced (draft_sound_congr h.draft rfl rfl fun _ _ => rfl) (Nat.le_refl _)
  rw [gen_end_some pending]
  exact rewound.of_same ⟨rfl, rfl, rfl, rfl, rfl⟩

end GridcoreRunner.Generation
