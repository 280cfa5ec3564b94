import GridcoreRunner.Engine.Fleet

/-!
# What an engine of a fleet may rely on

Every row an engine counts as its own was computed from the tokens its history
names, and a forked prefix is the cold prefill of the prompt. Both stop holding
behind a recurrent snapshot that was stored under a shorter length than its fold
was computed over.
-/

namespace GridcoreRunner.Generation

set_option autoImplicit false

open GridcoreRunner.Causal GridcoreRunner.Runs

variable {Id Key V σ κ Row Fold Logits : Type*}

/-- The rows below `extent` are those of the history, and the draft model's below
`dpos` too. -/
structure HistoryCoherent (s : Setup V σ κ Row Fold Logits) (e : Engine V σ κ Row Fold)
    (extent : Nat) : Prop where
  row : ∀ index, index < extent →
    e.kv.rows index = coldRow s.m.w (cells e.hist index) (e.hist index)
  draftLe : e.dpos ≤ e.pos
  draft : ∀ d, s.dm = some d → ∀ index, index < e.dpos →
    e.dkv.rows index = coldRow d.w (cells e.hist index) (e.hist index)

/-- The rows an engine claims, less the one whose forward is still owed. -/
def World.extent (w : World Id Key V σ κ Row Fold) (i : Id) : Nat :=
  match w.session i with
  | .owed _ _ => (w.engine i).pos - 1
  | _ => (w.engine i).pos

/-- What `keep` promises about the engine a reuse leaves. -/
structure ForkSound (s : Setup V σ κ Row Fold Logits) (e : Engine V σ κ Row Fold)
    (toks : List Nat) (keep : Nat) : Prop where
  pos : e.pos = keep
  rows : cells e.kv.rows keep = coldRows s.m.w (toks.take keep)
  hist : cells e.hist keep = toks.take keep
  short : toks ≠ [] → keep + 1 ≤ toks.length
  fold : s.m.w.recurrent = true → foldAt s.m.w e.kv keep = coldFold s.m.w (toks.take keep)

theorem history_coherent_of_sound {s : Setup V σ κ Row Fold Logits} {e : Engine V σ κ Row Fold}
    (h : Sound s e) : HistoryCoherent s e e.pos :=
  ⟨rows_of_cells h.target.rows, h.draftLe, fun d found => rows_of_cells (h.draft d found).rows⟩

theorem history_coherent_of_owed {s : Setup V σ κ Row Fold Logits} {e : Engine V σ κ Row Fold}
    {tok pos : Nat} (h : Owed s e tok pos) : HistoryCoherent s e (e.pos - 1) := by
  have bound := h.draftLe
  have last := h.pos_eq
  refine ⟨?_, by omega, fun d found => rows_of_cells (h.draft d found).rows⟩
  rw [last, Nat.add_sub_cancel]
  exact rows_of_cells h.target.rows

section
variable [DecidableEq Key] [DecidableEq Id]

/-- KV and history agree on every engine after every call. -/
theorem kv_history_coherent (fleet : Fleet Id Key V σ κ Row Fold Logits)
    {w : World Id Key V σ κ Row Fold} (run : Reaches fleet.Start fleet.fire fleet.Meets w)
    (i : Id) : HistoryCoherent (fleet.slot i).setup (w.engine i) (w.extent i) := by
  have session := (fleet_sound run).engines i
  unfold World.extent
  cases at_ : w.session i with
  | settled =>
      rw [at_] at session
      exact history_coherent_of_sound session.1
  | owed tok pos =>
      rw [at_] at session
      exact history_coherent_of_owed session
  | forwarded =>
      rw [at_] at session
      exact history_coherent_of_sound session.1

/-- A fork, or a plain rewind, is the cold prefill of the prompt's first `keep`
tokens. -/
theorem prefix_fork_sound (fleet : Fleet Id Key V σ κ Row Fold Logits)
    {w : World Id Key V σ κ Row Fold} (run : Reaches fleet.Start fleet.fire fleet.Meets w)
    (i : Id) (settled : w.session i = .settled) (now : Int) (toks : List Nat) :
    let slot := fleet.slot i
    let out := enginePrefixReuse slot.setup slot.shape slot.key slot.gpu w.pfx now (w.engine i) toks
    ForkSound slot.setup out.2.1 toks out.2.2 := by
  have sound := fleet_sound run
  have session := sound.engines i
  rw [settled] at session
  have reused := prefix_reuse_sound (fleet.slot i).shape (fleet.slot i).gpu now toks
    (fleet.keyed i) sound.cache session.1
  simp only at reused ⊢
  generalize enginePrefixReuse (fleet.slot i).setup (fleet.slot i).shape (fleet.slot i).key
    (fleet.slot i).gpu w.pfx now (w.engine i) toks = out at reused ⊢
  obtain ⟨-, kept, pos, tokens, short⟩ := reused
  have reach : out.2.1.tokens.length = out.2.2 := by rw [Engine.tokens_length, pos]
  have length : (toks.take out.2.2).length = out.2.2 := by rw [← tokens, reach]
  have rows := kept.target.rows
  have fold := fold_at_of_coherent kept.target.fold
  rw [tokens] at rows fold
  unfold RowsOf at rows
  rw [length] at rows fold
  refine ⟨pos, rows, ?_, ?_, fun _ => fold⟩
  · rw [← tokens, Engine.tokens, pos]
  · intro nonempty
    have := List.length_pos_iff.mpr nonempty
    omega

end

/-! ## A clamped recurrent snapshot -/

section Clamped

/-- A recurrent model whose fold is the token list itself, so that a row shows
which tokens it was computed from. -/
def recorder : Weights Nat (List Nat) (List Nat) Unit where
  recurrent := true
  fold0 := []
  row := fun _ fold tok => fold ++ [tok]
  fold := fun _ fold tok => fold ++ [tok]
  head := fun _ _ _ => ()

def idleConfig : Config Unit Unit Unit Unit where
  mode := .none
  payload := { init := (), feed := fun _ _ => some (), done := fun _ => false,
               close := fun _ _ => [], wsIsContent := fun _ => false, atRawTail := fun _ => false }
  thinkOpen := none
  thinkClose := none
  thinkEndId := none
  emitThinkPrelude := false
  constraintIncludesPrelude := false
  allowWs := false
  stopIds := []
  ignoreEos := false
  decode := fun _ => []
  isControl := fun _ => false
  raw := fun _ => none
  samplePick := fun smp _ _ => (.noCandidate, smp)
  samplerAccept := fun smp _ => smp
  samplerReset := fun smp => smp
  callback := fun cb _ _ => (cb, false, 0)

def idleGen : Gen Unit Unit Unit where
  smp := ()
  cbState := ()
  calls := []
  phase := .output
  tagPossible := false
  tagMatch := 0
  closeMatch := 0
  pv := ()
  cdoc := []
  cdocRec := true
  closing := false
  hitStop := false
  oom := false
  preludeMax := 0
  preludeCount := 0
  preludeExhausted := false

/-- One engine on the recorder, eight bytes a row and a one-byte fold. -/
def recorderFleet : Fleet Unit Unit Unit Unit Unit (List Nat) (List Nat) Unit where
  slot := fun _ =>
    { setup :=
        { m := { w := recorder, nCtx := 64, nBatch := 32, specBatch := 1, nVocab := 256,
                 verifyOk := false }
          dm := none
          gramFf := false
          grammarDraft := fun _ _ => []
          c := idleConfig }
      key := ()
      shape := { rowBytes := 8, blobBytes := 1 }
      gpu := false }
  weights := fun _ => recorder
  keyed := fun _ => rfl

def recorderStart (budget : Nat) : World Unit Unit Unit Unit Unit (List Nat) (List Nat) where
  pfx := { entries := [], bytes := 0, budget, ttl := 600 }
  engine := fun _ =>
    { pos := 0, hist := fun _ => 0, kv := { rows := fun _ => [], fold := [], snap := none },
      dpos := 0, dkv := { rows := fun _ => [], fold := [], snap := none }, pendingPos := none,
      genMax := 0, genCount := 0, gen := idleGen }
  session := fun _ => .settled

def recorderPrompt : List Nat := List.range 18

/-- Prefill a prompt of 18 tokens, publish it, and start over. -/
def publishedWorld (budget : Nat) : World Unit Unit Unit Unit Unit (List Nat) (List Nat) :=
  advance recorderFleet.fire
    (advance recorderFleet.fire
      (advance recorderFleet.fire (recorderStart budget) (.call () (.feed [] recorderPrompt)))
      (.call () (.publish 0 [] recorderPrompt)))
    (.call () .reset)

/-- Fork another prompt off that snapshot and feed the one token it lacks. -/
def forkedWorld (budget : Nat) (front : List Nat) :
    World Unit Unit Unit Unit Unit (List Nat) (List Nat) :=
  advance recorderFleet.fire
    (advance recorderFleet.fire (publishedWorld budget) (.call () (.reuse 0 (front ++ [99]))))
    (.call () (.feed [] [99]))

theorem recorder_start (budget : Nat) : recorderFleet.Start (recorderStart budget) :=
  ⟨rfl, fun _ => ⟨rfl, rfl, rfl, rfl⟩⟩

/-- The run to `publishedWorld`, under any condition its events meet. -/
theorem published_run {meets : World Unit Unit Unit Unit Unit (List Nat) (List Nat) →
      Event Unit (List Nat) Unit → Prop} (budget : Nat)
    (fed : meets (recorderStart budget) (.call () (.feed [] recorderPrompt)))
    (published : meets
      (advance recorderFleet.fire (recorderStart budget) (.call () (.feed [] recorderPrompt)))
      (.call () (.publish 0 [] recorderPrompt)))
    (reset : ∀ w, meets w (.call () .reset)) :
    Reaches recorderFleet.Start recorderFleet.fire meets (publishedWorld budget) := by
  have begun : Reaches recorderFleet.Start recorderFleet.fire meets (recorderStart budget) :=
    .start _ (recorder_start budget)
  exact ((begun.advance _ fed rfl).advance _ published rfl).advance _ (reset _) rfl

/-- With room for the whole prompt the snapshot is stored whole. -/
theorem whole_run : Reaches recorderFleet.Start recorderFleet.fire recorderFleet.Meets
    (publishedWorld 1000) := by
  apply published_run 1000 trivial _ fun _ => trivial
  intro _ left count _ _
  exact ⟨rfl, rfl, by decide⟩

theorem whole_fork_run : Reaches recorderFleet.Start recorderFleet.fire recorderFleet.Meets
    (forkedWorld 1000 recorderPrompt) :=
  (whole_run.advance (.call () (.reuse 0 (recorderPrompt ++ [99]))) trivial rfl).advance
    (.call () (.feed [] [99])) trivial rfl

theorem recorder_history_coherent :
    HistoryCoherent (recorderFleet.slot ()).setup
      ((forkedWorld 1000 recorderPrompt).engine ()) ((forkedWorld 1000 recorderPrompt).extent ()) ∧
      (forkedWorld 1000 recorderPrompt).extent () = 19 :=
  ⟨kv_history_coherent recorderFleet whole_fork_run (), by decide⟩

theorem recorder_fork_sound :
    let slot := recorderFleet.slot ()
    let out := enginePrefixReuse slot.setup slot.shape slot.key slot.gpu (publishedWorld 1000).pfx 0
      ((publishedWorld 1000).engine ()) (recorderPrompt ++ [99])
    ForkSound slot.setup out.2.1 (recorderPrompt ++ [99]) out.2.2 ∧ out.2.2 = 18 :=
  ⟨prefix_fork_sound recorderFleet whole_run () rfl 0 (recorderPrompt ++ [99]), by decide⟩

/-- Half of 288 bytes holds 16 tokens of the 18: the fork reads the fold of 18. -/
theorem clamped_fork_unsound :
    ¬ ∀ w, Reachable recorderFleet.Start recorderFleet.fire w → w.session () = .settled →
      ∀ (now : Int) (toks : List Nat),
        let slot := recorderFleet.slot ()
        let out := enginePrefixReuse slot.setup slot.shape slot.key slot.gpu w.pfx now
          (w.engine ()) toks
        ForkSound slot.setup out.2.1 toks out.2.2 := by
  intro claim
  have run : Reachable recorderFleet.Start recorderFleet.fire (publishedWorld 288) :=
    published_run 288 trivial trivial fun _ => trivial
  have fold := (claim _ run rfl 0 (List.range 16 ++ [99])).fold rfl
  revert fold
  decide

/-- The first row fed behind that fork was computed from 18 tokens the history
does not name. -/
theorem clamped_history_incoherent :
    ¬ ∀ w, Reachable recorderFleet.Start recorderFleet.fire w →
      HistoryCoherent (recorderFleet.slot ()).setup (w.engine ()) (w.extent ()) := by
  intro claim
  have run : Reachable recorderFleet.Start recorderFleet.fire (publishedWorld 288) :=
    published_run 288 trivial trivial fun _ => trivial
  have forked : Reachable recorderFleet.Start recorderFleet.fire
      (forkedWorld 288 (List.range 16)) :=
    (run.advance (.call () (.reuse 0 (List.range 16 ++ [99]))) trivial rfl).advance
      (.call () (.feed [] [99])) trivial rfl
  have row := (claim _ forked).row 16 (by decide)
  revert row
  decide

end Clamped

end GridcoreRunner.Generation
