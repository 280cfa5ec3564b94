import GridcoreRunner.Engine.Coherence

/-!
# Coherence through a speculative generation

During a round the target cache runs ahead of `pos` over the drafts and the draft
cache over its own proposals. The walk invariant ties both to the drafts; every
exit keeps the accepted prefix and rolls the two caches back to it.
-/

namespace GridcoreRunner.Generation

set_option autoImplicit false

open GridcoreRunner.Causal

variable {V σ κ Row Fold Logits : Type*}
variable {s : Setup V σ κ Row Fold Logits} {e e' : Engine V σ κ Row Fold}

/-- The draft cache is the cold cache of some tokens that agree with `line`
wherever both reach. -/
def DraftAhead (s : Setup V σ κ Row Fold Logits) (e : Engine V σ κ Row Fold) (line : List Nat) :
    Prop :=
  ∀ d, s.dm = some d → ∃ fed : List Nat, fed.length = e.dpos ∧ Coherent d.w e.dkv fed ∧
    ∀ index, index < fed.length → index < line.length → fed[index]? = (line)[index]?

theorem draft_ahead_of_sound (h : DraftSound s e) (line : List Nat)
    (front : cells e.hist e.pos <+: line) (le : e.dpos ≤ e.pos) : DraftAhead s e line := by
  intro d found
  refine ⟨e.draftTokens, by simp, h d found, ?_⟩
  intro index bound _
  obtain ⟨back, rfl⟩ := front
  simp only [Engine.draft_tokens_length] at bound
  rw [Engine.draftTokens, cells_get _ _ _ bound, List.getElem?_append_left (by simp; omega),
    cells_get _ _ _ (by omega)]

theorem draft_ahead_congr {line : List Nat} (h : DraftAhead s e line) (dpos : e'.dpos = e.dpos)
    (dkv : e'.dkv = e.dkv) : DraftAhead s e' line := by
  intro d found
  rw [dpos, dkv]
  exact h d found

/-- Rewinding the draft below the part where `hist` and `line` agree. -/
theorem draft_ahead_rewind {line : List Nat} {count target : Nat} (h : DraftAhead s e line)
    (agree : cells e.hist count = line.take count) (le : target ≤ count)
    (reach : count ≤ line.length) : DraftSound s (dposRewind s e target) := by
  intro d found
  obtain ⟨fed, fed_length, cache, same⟩ := h d found
  have prefix_eq : ∀ shorter, shorter ≤ count → shorter ≤ fed.length →
      cells e.hist shorter = fed.take shorter := by
    intro shorter within inside
    rw [← cells_take e.hist count shorter within, agree, List.take_take, Nat.min_eq_left within]
    apply List.ext_getElem?
    intro index
    by_cases bound : index < shorter
    · rw [List.getElem?_take_of_lt bound, List.getElem?_take_of_lt bound,
        same index (by omega) (by omega)]
    · rw [List.getElem?_eq_none (by simp; omega), List.getElem?_eq_none (by simp; omega)]
  unfold dposRewind
  split
  · next below =>
    have eq := prefix_eq e.dpos (by omega) (by omega)
    rw [← fed_length, List.take_length] at eq
    rw [Engine.draftTokens, ← fed_length, eq]
    exact cache
  · next above =>
    simp only [Engine.draftTokens, found, Option.map_some, Option.getD_some]
    by_cases rec : d.w.recurrent = true
    · simpa [rec] using coherent_nil
    · have sliced := coherent_take_of_not_recurrent cache (by simpa using rec) target
      rw [← prefix_eq target le (by omega)] at sliced
      simpa [rec] using sliced

/-! ## Drafting -/

theorem draft_catch_up_frame (d : Draft Row Fold Logits) (fuel : Nat)
    (e : Engine V σ κ Row Fold) (dl : Option Logits) :
    let out := (draftCatchUp d fuel e dl).1
    out.pos = e.pos ∧ out.hist = e.hist ∧ out.kv = e.kv ∧ out.gen = e.gen ∧
      out.genMax = e.genMax ∧ out.genCount = e.genCount ∧ out.pendingPos = e.pendingPos := by
  induction fuel generalizing e dl with
  | zero => simp [draftCatchUp]
  | succ fuel induction =>
      simp only [draftCatchUp]
      split
      · split
        · simp
        · exact induction _ _
      · simp

theorem catch_up_chunk (hist : Nat → Nat) (dpos count : Nat) :
    cells hist dpos ++ (List.range count).map (fun index => hist (dpos + index)) =
      cells hist (dpos + count) := by
  simp [cells, List.range_add]

theorem draft_catch_up_sound (d : Draft Row Fold Logits) (fuel : Nat) (dl : Option Logits)
    (cache : Coherent d.w e.dkv e.draftTokens) (le : e.dpos ≤ e.pos) :
    let out := (draftCatchUp d fuel e dl).1
    Coherent d.w out.dkv out.draftTokens ∧ out.dpos ≤ out.pos := by
  induction fuel generalizing e dl with
  | zero => exact ⟨cache, le⟩
  | succ fuel induction =>
      simp only [draftCatchUp]
      split
      · split
        · exact ⟨cache, le⟩
        · apply induction
          · have batch := forward_batch_coherent cache
              ((List.range (min (e.pos - e.dpos) d.nBatch)).map fun index =>
                e.hist (e.dpos + index))
            rw [Engine.draft_tokens_length, Engine.draftTokens, catch_up_chunk] at batch
            exact batch
          · simp only
            omega
      · exact ⟨cache, le⟩

/-- Logits in hand mean the draft has caught up. -/
theorem draft_catch_up_level (d : Draft Row Fold Logits) (fuel : Nat) (dl : Option Logits)
    (le : e.dpos ≤ e.pos) (enough : e.pos - e.dpos ≤ fuel ∨ dl = none) :
    (draftCatchUp d fuel e dl).2 ≠ none →
      (draftCatchUp d fuel e dl).1.dpos = (draftCatchUp d fuel e dl).1.pos := by
  induction fuel generalizing e dl with
  | zero =>
      intro some
      rcases enough with bound | none
      · simp only [draftCatchUp]
        omega
      · exact absurd none some
  | succ fuel induction =>
      simp only [draftCatchUp]
      split
      · next behind =>
        split
        · simp
        · apply induction
          · simp only
            omega
          · simp only
            by_cases level : e.dpos + min (e.pos - e.dpos) d.nBatch = e.pos
            · left
              omega
            · right
              rw [if_neg level]
      · next level =>
        intro _
        show e.dpos = e.pos
        omega

theorem draft_propose_spec (d : Draft Row Fold Logits) (fuel : Nat) (dl : Logits) (nd : Nat)
    (fed : List Nat) (fed_length : fed.length = e.dpos) (cache : Coherent d.w e.dkv fed) :
    let out := draftPropose s d fuel e dl nd
    out.1.pos = e.pos ∧ out.1.hist = e.hist ∧ out.1.kv = e.kv ∧ out.1.gen = e.gen ∧
      (fed ++ out.2.2).length = out.1.dpos ∧ Coherent d.w out.1.dkv (fed ++ out.2.2) := by
  induction fuel generalizing e dl nd fed with
  | zero => simpa [draftPropose] using ⟨fed_length, cache⟩
  | succ fuel induction =>
      simp only [draftPropose]
      split
      · split
        · simpa using ⟨fed_length, cache⟩
        · have next := forward_coherent cache (d.argmax dl)
          rw [fed_length] at next
          have rest := induction
            (e := { e with dkv := forward d.w e.dkv (d.argmax dl) e.dpos, dpos := e.dpos + 1 })
            (forwardHead d.w e.dkv (d.argmax dl) e.dpos) (nd + 1) (fed ++ [d.argmax dl])
            (by simp [fed_length]) next
          simpa using rest
      · simpa using ⟨fed_length, cache⟩

/-- What a round's drafting leaves: the target untouched, the draft cache over
its own proposals. -/
theorem draft_round_spec (h : Sound s e) (dl : Option Logits) (maxNew : Int) (nGen : Nat) :
    let out := draftRound s e dl maxNew nGen
    out.1.pos = e.pos ∧ out.1.hist = e.hist ∧ out.1.kv = e.kv ∧ out.1.gen = e.gen ∧
      DraftAhead s out.1 (e.tokens ++ out.2.2) := by
  have settled : ∀ line : List Nat, DraftAhead s e (e.tokens ++ line) := fun line =>
    draft_ahead_of_sound h.draft _ (List.prefix_append _ _) h.draftLe
  simp only [draftRound]
  split
  · exact ⟨rfl, rfl, rfl, rfl, settled _⟩
  · cases installed : s.dm with
    | none => exact ⟨rfl, rfl, rfl, rfl, settled _⟩
    | some d =>
        simp only
        have frame := draft_catch_up_frame d (e.pos - e.dpos) e dl
        have sound := draft_catch_up_sound d (e.pos - e.dpos) dl (h.draft d installed) h.draftLe
        have level := draft_catch_up_level d (e.pos - e.dpos) dl h.draftLe (.inl (Nat.le_refl _))
        generalize draftCatchUp d (e.pos - e.dpos) e dl = caught at frame sound level
        obtain ⟨ahead, heads⟩ := caught
        simp only at frame sound level
        obtain ⟨pos, hist, kv, gen, -, -, -⟩ := frame
        have tokens : ahead.tokens = e.tokens := by rw [Engine.tokens, pos, hist, Engine.tokens]
        cases heads with
        | none =>
            refine ⟨pos, hist, kv, gen, ?_⟩
            rw [← tokens]
            apply draft_ahead_of_sound _ _ (List.prefix_append _ _) sound.2
            intro d' found
            obtain rfl : d = d' := Option.some.inj (installed.symm.trans found)
            exact sound.1
        | some logits =>
            have full : ahead.draftTokens = ahead.tokens := by
              rw [Engine.draftTokens, level (by simp), Engine.tokens]
            have spec := draft_propose_spec (s := s) d (draftWindow s.m d.draftK) logits 0
              ahead.draftTokens (by simp) sound.1
            simp only at spec ⊢
            obtain ⟨pos', hist', kv', gen', reach, cache⟩ := spec
            refine ⟨pos'.trans pos, hist'.trans hist, kv'.trans kv, gen'.trans gen, ?_⟩
            intro d' found
            obtain rfl : d = d' := Option.some.inj (installed.symm.trans found)
            rw [full, tokens] at reach cache
            exact ⟨_, reach, cache, fun _ _ _ => rfl⟩

/-! ## The walk -/

theorem take_line (e : Engine V σ κ Row Fold) (drafts : List Nat) (acc : Nat) :
    (e.tokens ++ drafts).take (e.pos + acc) = e.tokens ++ drafts.take acc := by
  have split : (e.tokens ++ drafts).take (e.tokens.length + acc) = e.tokens ++ drafts.take acc :=
    List.take_length_add_append acc
  rwa [Engine.tokens_length] at split

/-- A snapshot taken at the end of a coherent sequence is its fold. -/
theorem snapshot_coherent (h : Coherent s.m.w e.kv e.tokens) :
    Coherent s.m.w (recurrentSnapshot s.m e.kv e.pos) e.tokens := by
  unfold recurrentSnapshot
  split
  · next rec =>
    refine ⟨h.rows, h.fold, ?_⟩
    intro _ nonempty position fold found
    obtain ⟨rfl, rfl⟩ : e.pos = position ∧ e.kv.fold = fold := by simpa using found
    refine ⟨by simp, ?_⟩
    rw [List.take_of_length_le (by simp)]
    exact h.fold rec nonempty
  · exact h

theorem forward_heads_length (w : Weights Nat Row Fold Logits) (kv : Kv Row Fold)
    (batch : List Nat) (pos : Nat) : (forwardHeads w kv batch pos).length = batch.length := by
  induction batch generalizing kv pos with
  | nil => rfl
  | cons token batch induction => simp [forwardHeads, induction]

/-- After the verify batch the target cache runs over the drafts that will be
walked, all of them or none. -/
theorem verify_round_spec (h : Coherent s.m.w e.kv e.tokens) (drafts : List Nat) :
    let out := verifyRound s e drafts
    out.1.pos = e.pos ∧ out.1.hist = e.hist ∧ out.1.dpos = e.dpos ∧ out.1.dkv = e.dkv ∧
      out.1.gen = e.gen ∧
      ((out.2.map Prod.fst = drafts ∧ out.2.map Prod.snd = coldHeads s.m.w e.tokens drafts) ∨
        out.2 = []) ∧
      Coherent s.m.w out.1.kv (e.tokens ++ out.2.map Prod.fst) := by
  simp only [verifyRound]
  split
  · next empty =>
    refine ⟨rfl, rfl, rfl, rfl, rfl, .inr rfl, ?_⟩
    simpa using h
  · split
    · refine ⟨rfl, rfl, rfl, rfl, rfl, .inr rfl, ?_⟩
      simpa using snapshot_coherent h
    · have shot := snapshot_coherent h
      have batch := forward_batch_coherent shot drafts
      have heads := forward_heads_of_coherent shot drafts
      have count := forward_heads_length s.m.w (recurrentSnapshot s.m e.kv e.pos) drafts e.pos
      rw [Engine.tokens_length] at batch heads
      refine ⟨rfl, rfl, rfl, rfl, rfl, .inl ⟨?_, ?_⟩, ?_⟩
      · exact List.map_fst_zip (by omega)
      · rw [← heads]
        exact List.map_snd_zip (by omega)
      · rw [List.map_fst_zip (by omega)]
        exact batch

/-- The caches in the middle of a walk over `drafts`, `acc` of them accepted. -/
structure WalkSound (s : Setup V σ κ Row Fold Logits) (e : Engine V σ κ Row Fold)
    (drafts : List Nat) (acc : Nat) : Prop where
  target : Coherent s.m.w e.kv (e.tokens ++ drafts)
  accepted : cells e.hist (e.pos + acc) = e.tokens ++ drafts.take acc
  accLe : acc ≤ drafts.length
  draft : DraftAhead s e (e.tokens ++ drafts)

theorem spec_fold_sync_frame (drafts : List Nat) (acc roundPos : Nat) :
    let out := specFoldSync s e drafts acc roundPos
    out.pos = e.pos ∧ out.hist = e.hist ∧ out.dpos = e.dpos ∧ out.dkv = e.dkv ∧
      out.gen = e.gen := by
  simp only [specFoldSync]
  split
  · simp
  · split <;> simp

/-- Both rollback paths of `spec_fold_sync` land on the accepted prefix. -/
theorem keep_accepted_spec {drafts : List Nat} {acc : Nat} (h : WalkSound s e drafts acc) :
    let out := keepAccepted s e drafts acc
    out.pos = e.pos + acc ∧ out.hist = e.hist ∧ out.dpos = e.dpos ∧ out.dkv = e.dkv ∧
      out.gen = e.gen ∧ Coherent s.m.w out.kv (cells e.hist (e.pos + acc)) := by
  have frame := spec_fold_sync_frame (s := s) (e := { e with pos := e.pos + acc }) drafts acc e.pos
  simp only at frame
  refine ⟨frame.1, frame.2.1, frame.2.2.1, frame.2.2.2.1, frame.2.2.2.2, ?_⟩
  simp only [keepAccepted, specFoldSync]
  split
  · next skip =>
    simp only [Bool.or_eq_true, decide_eq_true_eq, Bool.not_eq_true'] at skip
    rw [h.accepted]
    rcases skip with (empty | all) | plain
    · obtain rfl := List.length_eq_zero_iff.mp empty
      simpa using h.target
    · rw [List.take_of_length_le (by omega)]
      exact h.target
    · rw [← take_line]
      exact coherent_take_of_not_recurrent h.target plain _
  · next act =>
    have nonempty : e.tokens ++ drafts ≠ [] := by
      intro empty
      simp only [List.append_eq_nil_iff] at empty
      simp [empty.2] at act
    cases restored : recurrentRestore s.m e.kv e.pos with
    | some kv =>
        have back := restore_coherent h.target nonempty restored
        rw [List.take_append_of_le_length (by simp), List.take_of_length_le (by simp)] at back
        have again := forward_batch_coherent back (drafts.take acc)
        rw [Engine.tokens_length] at again
        rw [h.accepted]
        exact again
    | none =>
        have empty : Coherent s.m.w (recurrentReset s.m e.kv) [] := coherent_nil
        have rebuilt := forward_batch_coherent empty (cells e.hist (e.pos + acc))
        simpa using rebuilt

theorem keep_accepted_draft {drafts : List Nat} {acc target : Nat} (h : WalkSound s e drafts acc)
    (le : target ≤ e.pos + acc) (same_dpos : e'.dpos = e.dpos) (same_dkv : e'.dkv = e.dkv)
    (agree : cells e'.hist (e.pos + acc) = cells e.hist (e.pos + acc)) :
    DraftSound s (dposRewind s e' target) := by
  have bound := h.accLe
  have line : cells e'.hist (e.pos + acc) = (e.tokens ++ drafts).take (e.pos + acc) := ?_
  · exact draft_ahead_rewind (draft_ahead_congr h.draft same_dpos same_dkv) line le
      (by simp; omega)
  rw [agree, h.accepted, take_line]

/-- Leaving a walk with the accepted drafts kept. -/
theorem keep_accepted_sound {drafts : List Nat} {acc : Nat} (h : WalkSound s e drafts acc)
    {out : Engine V σ κ Row Fold} (same : SameCache (keepAccepted s e drafts acc) out) :
    Sound s (dposRewind s out out.pos) := by
  obtain ⟨pos, hist, dpos, dkv, -, cache⟩ := keep_accepted_spec h
  have out_pos : out.pos = e.pos + acc := same.pos.trans pos
  have out_hist : out.hist = e.hist := same.hist.trans hist
  refine ⟨?_, ?_, ?_⟩
  · rw [Engine.tokens, dpos_rewind_hist, dpos_rewind_pos, dpos_rewind_kv, out_pos, out_hist,
      same.kv]
    exact cache
  · rw [dpos_rewind_pos]
    exact dpos_rewind_le _
  · exact keep_accepted_draft h (by omega) (same.dpos.trans dpos) (same.dkv.trans dkv)
      (by rw [out_hist])

/-- What holds where a walk ends. -/
def WalkEnd.Good (s : Setup V σ κ Row Fold Logits) : WalkEnd V σ κ Row Fold Logits → Prop
  | .done e _ => Sound s e
  | .returned e _ => Sound s e
  | .round e _ logits => Sound s e ∧ ∃ front tok, e.tokens = front ++ [tok] ∧
      logits = coldHead s.m.w front tok

theorem WalkSound.with_gen {drafts : List Nat} {acc : Nat} (h : WalkSound s e drafts acc)
    (gen : Gen V σ κ) : WalkSound s { e with gen } drafts acc :=
  ⟨h.target, h.accepted, h.accLe, draft_ahead_congr h.draft (by rfl) (by rfl)⟩

/-- Accepting the draft the target sampled. -/
theorem WalkSound.accept {drafts : List Nat} {acc : Nat} (tok : Nat) (h : WalkSound s e drafts acc)
    (next : drafts[acc]? = some tok) (gen : Gen V σ κ) :
    WalkSound s { e with gen, hist := Function.update e.hist (e.pos + acc) tok } drafts
      (acc + 1) := by
  have tokens : ({ e with gen, hist := Function.update e.hist (e.pos + acc) tok } :
      Engine V σ κ Row Fold).tokens = e.tokens :=
    cells_update_above _ _ _ _ (Nat.le_add_right e.pos acc)
  obtain ⟨bound, value⟩ := List.getElem?_eq_some_iff.mp next
  refine ⟨by rw [tokens]; exact h.target, ?_, bound, ?_⟩
  · rw [tokens]
    show cells (Function.update e.hist (e.pos + acc) tok) (e.pos + acc + 1) = _
    rw [cells_update, h.accepted, List.append_assoc, List.take_add_one, next]
    rfl
  · rw [tokens]
    exact draft_ahead_congr h.draft (by rfl) (by rfl)

/-- A rejected or bonus position: the real token is forwarded behind the accepted
prefix, and the draft goes back to just before it. -/
theorem reject_sound {drafts : List Nat} {acc : Nat} (tok : Nat) (h : WalkSound s e drafts acc)
    {kept out : Engine V σ κ Row Fold} (kept_eq : kept = keepAccepted s e drafts acc)
    (out_eq : out = { kept with
      hist := Function.update kept.hist kept.pos tok
      kv := forward s.m.w kept.kv tok kept.pos
      pos := kept.pos + 1 }) :
    Sound s (dposRewind s out (out.pos - 1)) ∧
      out.tokens = cells e.hist (e.pos + acc) ++ [tok] ∧
      forwardHead s.m.w kept.kv tok kept.pos =
        coldHead s.m.w (cells e.hist (e.pos + acc)) tok := by
  obtain ⟨pos, hist, dpos, dkv, -, cache⟩ := keep_accepted_spec h
  rw [← kept_eq] at pos hist dpos dkv cache
  have next := forward_coherent cache tok
  have head := forward_head_of_coherent cache.rows cache.fold tok
  rw [cells_length] at next head
  have tokens : out.tokens = cells e.hist (e.pos + acc) ++ [tok] := by
    rw [out_eq, Engine.tokens]
    show cells (Function.update kept.hist kept.pos tok) (kept.pos + 1) = _
    rw [cells_update, pos, hist]
  refine ⟨⟨?_, ?_, ?_⟩, tokens, by rw [pos]; exact head⟩
  · rw [Engine.tokens, dpos_rewind_hist, dpos_rewind_pos, dpos_rewind_kv, ← Engine.tokens, tokens]
    rw [out_eq]
    show Coherent _ (forward s.m.w kept.kv tok kept.pos) _
    rw [pos]
    exact next
  · have := dpos_rewind_le (s := s) (e := out) (out.pos - 1)
    rw [dpos_rewind_pos]
    omega
  · have out_pos : out.pos = e.pos + acc + 1 := by rw [out_eq, ← pos]
    apply keep_accepted_draft h (by omega)
    · rw [out_eq]; exact dpos
    · rw [out_eq]; exact dkv
    · rw [out_eq]
      show cells (Function.update kept.hist kept.pos tok) (e.pos + acc) = _
      rw [cells_update_above _ _ _ _ (by omega), hist]

/-- Every way out of a walk leaves the caches sound. -/
theorem spec_walk_sound {drafts : List Nat} (maxNew : Int) {rest : List (Nat × Logits)}
    {acc : Nat} (nGen : Nat) (logits : Logits) (h : WalkSound s e drafts acc)
    (left : rest.map Prod.fst = drafts.drop acc) :
    (specWalk s drafts maxNew rest acc e logits nGen).Good s := by
  induction rest generalizing acc e logits nGen with
  | nil =>
      unfold specWalk
      split
      · exact keep_accepted_sound h ⟨rfl, rfl, rfl, rfl, rfl⟩
      · split
        · next gen _ => exact keep_accepted_sound (h.with_gen gen) ⟨rfl, rfl, rfl, rfl, rfl⟩
        · next gen tok _ =>
          have out := reject_sound tok (h.with_gen (specToken s.c gen tok).gen) rfl rfl
          simp only
          split
          · exact keep_accepted_sound (h.with_gen _) ⟨rfl, rfl, rfl, rfl, rfl⟩
          · split
            · exact out.1
            · refine ⟨out.1, _, tok, ?_, out.2.2⟩
              rw [Engine.tokens, dpos_rewind_hist, dpos_rewind_pos]
              exact out.2.1
  | cons pair rest induction =>
      obtain ⟨draft, rowLogits⟩ := pair
      have next : drafts[acc]? = some draft := by
        rw [← List.head?_drop, ← left]
        rfl
      have later : rest.map Prod.fst = drafts.drop (acc + 1) := by
        rw [← List.tail_drop, ← left]
        rfl
      unfold specWalk
      split
      · exact keep_accepted_sound h ⟨rfl, rfl, rfl, rfl, rfl⟩
      · split
        · next gen _ => exact keep_accepted_sound (h.with_gen gen) ⟨rfl, rfl, rfl, rfl, rfl⟩
        · next gen tok _ =>
          simp only
          split
          · next matched =>
            have taken := h.accept tok (by rw [next, matched.1])
              (specToken s.c gen tok).gen
            split
            · exact keep_accepted_sound (taken.with_gen _) ⟨rfl, rfl, rfl, rfl, rfl⟩
            · exact induction _ _ taken later
          · have out := reject_sound tok (h.with_gen (specToken s.c gen tok).gen) rfl rfl
            split
            · exact keep_accepted_sound (h.with_gen _) ⟨rfl, rfl, rfl, rfl, rfl⟩
            · split
              · exact out.1
              · refine ⟨out.1, _, tok, ?_, out.2.2⟩
                rw [Engine.tokens, dpos_rewind_hist, dpos_rewind_pos]
                exact out.2.1

/-- Before the first draft is looked at. -/
theorem walk_sound_start (h : Sound s e) (dl : Option Logits) (maxNew : Int) (nGen : Nat) :
    let drafted := draftRound s e dl maxNew nGen
    let out := verifyRound s drafted.1 drafted.2.2
    WalkSound s out.1 (out.2.map Prod.fst) 0 := by
  have round := draft_round_spec h dl maxNew nGen
  simp only at round ⊢
  obtain ⟨pos, hist, kv, -, ahead⟩ := round
  generalize draftRound s e dl maxNew nGen = drafted at pos hist kv ahead
  obtain ⟨started, dl', drafts⟩ := drafted
  simp only at pos hist kv ahead ⊢
  have tokens : started.tokens = e.tokens := by rw [Engine.tokens, pos, hist, Engine.tokens]
  have cache : Coherent s.m.w started.kv started.tokens := by
    rw [kv, tokens]
    exact h.target
  obtain ⟨pos', hist', dpos', dkv', -, rows, target⟩ := verify_round_spec cache drafts
  generalize verifyRound s started drafts = out at pos' hist' dpos' dkv' rows target
  have tokens' : out.1.tokens = started.tokens := by
    rw [Engine.tokens, pos', hist', Engine.tokens]
  rw [← tokens] at ahead
  refine ⟨by rw [tokens']; exact target, ?_, Nat.zero_le _, ?_⟩
  · simp [Engine.tokens]
  · rw [tokens']
    apply draft_ahead_congr _ dpos' dkv'
    rcases rows with rows | rows
    · rw [rows.1]
      exact ahead
    · intro d found
      obtain ⟨fed, reach, cold, agree⟩ := ahead d found
      refine ⟨fed, reach, cold, ?_⟩
      intro index bound inside
      rw [rows] at inside ⊢
      simp only [List.map_nil, List.append_nil, Engine.tokens_length] at inside ⊢
      rw [agree index bound (by simp; omega), List.getElem?_append_left (by simpa using inside)]

theorem spec_loop_sound (fuel : Nat) (maxNew : Int) (h : Sound s e) (logits : Logits)
    (dl : Option Logits) (nGen : Nat) : Sound s (specLoop s maxNew fuel e logits dl nGen).1 := by
  induction fuel generalizing e logits dl nGen with
  | zero => exact h
  | succ fuel induction =>
      simp only [specLoop]
      split
      · exact h.of_same ⟨rfl, rfl, rfl, rfl, rfl⟩
      · have start := walk_sound_start h dl maxNew nGen
        simp only at start
        have walked := spec_walk_sound maxNew nGen logits start (by rw [List.drop_zero])
        split
        · next ended =>
          rw [ended] at walked
          exact Sound.of_same walked ⟨rfl, rfl, rfl, rfl, rfl⟩
        · next ended =>
          rw [ended] at walked
          exact walked
        · next ended =>
          rw [ended] at walked
          exact induction walked.1 _ _ _

theorem generate_spec_sound (h : Sound s e) (logits : Logits) (maxNew : Int) :
    Sound s (generateSpec s e logits maxNew).1 := by
  have started : Sound s (specBegin maxNew e) := h.of_same ⟨rfl, rfl, rfl, rfl, rfl⟩
  have looped := spec_loop_sound (s.m.nCtx - e.pos + 1) maxNew started logits none 0
  unfold generateSpec
  generalize specLoop s maxNew (s.m.nCtx - e.pos + 1) (specBegin maxNew e) logits none 0 = out
    at looped
  exact looped.of_same ⟨rfl, rfl, rfl, rfl, rfl⟩

/-! ## The handed-out row is not touched -/

theorem draft_propose_pending (d : Draft Row Fold Logits) (fuel : Nat)
    (e : Engine V σ κ Row Fold) (dl : Logits) (nd : Nat) :
    (draftPropose s d fuel e dl nd).1.pendingPos = e.pendingPos := by
  induction fuel generalizing e dl nd with
  | zero => rfl
  | succ fuel induction =>
      simp only [draftPropose]
      split
      · split
        · rfl
        · exact induction _ _ _
      · rfl

theorem draft_round_pending (e : Engine V σ κ Row Fold) (dl : Option Logits) (maxNew : Int)
    (nGen : Nat) : (draftRound s e dl maxNew nGen).1.pendingPos = e.pendingPos := by
  simp only [draftRound]
  split
  · rfl
  · split
    · rfl
    · next d _ =>
      have caught := (draft_catch_up_frame d (e.pos - e.dpos) e dl).2.2.2.2.2.2
      split
      · exact caught
      · exact (draft_propose_pending d _ _ _ _).trans caught

theorem verify_round_pending (e : Engine V σ κ Row Fold) (drafts : List Nat) :
    (verifyRound s e drafts).1.pendingPos = e.pendingPos := by
  simp only [verifyRound]
  split
  · rfl
  · split <;> rfl

@[simp] theorem keep_accepted_pending (e : Engine V σ κ Row Fold) (drafts : List Nat)
    (acc : Nat) : (keepAccepted s e drafts acc).pendingPos = e.pendingPos := by
  simp only [keepAccepted, specFoldSync]
  split
  · rfl
  · split <;> rfl

def WalkEnd.engine : WalkEnd V σ κ Row Fold Logits → Engine V σ κ Row Fold
  | .done e _ => e
  | .returned e _ => e
  | .round e _ _ => e

theorem spec_walk_pending (drafts : List Nat) (maxNew : Int) (rest : List (Nat × Logits))
    (acc : Nat) (e : Engine V σ κ Row Fold) (logits : Logits) (nGen : Nat) :
    (specWalk s drafts maxNew rest acc e logits nGen).engine.pendingPos = e.pendingPos := by
  induction rest generalizing acc e logits nGen with
  | nil =>
      unfold specWalk
      simp only
      split
      · simp [WalkEnd.engine]
      · split
        · simp [WalkEnd.engine]
        · split
          · simp [WalkEnd.engine]
          · split <;> simp [WalkEnd.engine]
  | cons pair rest induction =>
      unfold specWalk
      simp only
      split
      · simp [WalkEnd.engine]
      · split
        · simp [WalkEnd.engine]
        · split
          · split
            · simp [WalkEnd.engine]
            · exact induction _ _ _ _
          · split
            · simp [WalkEnd.engine]
            · split <;> simp [WalkEnd.engine]

theorem spec_loop_pending (fuel : Nat) (maxNew : Int) (e : Engine V σ κ Row Fold)
    (logits : Logits) (dl : Option Logits) (nGen : Nat) :
    (specLoop s maxNew fuel e logits dl nGen).1.pendingPos = e.pendingPos := by
  induction fuel generalizing e logits dl nGen with
  | zero => rfl
  | succ fuel induction =>
      simp only [specLoop]
      split
      · rfl
      · have walked := spec_walk_pending (s := s)
          ((verifyRound s (draftRound s e dl maxNew nGen).1
            (draftRound s e dl maxNew nGen).2.2).2.map Prod.fst) maxNew
          (verifyRound s (draftRound s e dl maxNew nGen).1
            (draftRound s e dl maxNew nGen).2.2).2 0
          (verifyRound s (draftRound s e dl maxNew nGen).1
            (draftRound s e dl maxNew nGen).2.2).1 logits nGen
        rw [verify_round_pending, draft_round_pending] at walked
        split
        · next ended =>
          rw [ended] at walked
          exact walked
        · next ended =>
          rw [ended] at walked
          exact walked
        · next ended =>
          rw [ended] at walked
          exact (induction _ _ _ _).trans walked

theorem generate_spec_pending (e : Engine V σ κ Row Fold) (logits : Logits) (maxNew : Int) :
    (generateSpec s e logits maxNew).1.pendingPos = e.pendingPos :=
  spec_loop_pending _ _ _ _ _ _

end GridcoreRunner.Generation
