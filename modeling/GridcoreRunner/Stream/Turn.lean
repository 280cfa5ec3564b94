import GridcoreRunner.Stream.Run

/-!
# From the headers to the terminal

The opening, the flush and the terminal around the events. A turn ends in one of two
ways: the client was lost, or the terminal is on the wire behind all that was said.
-/

namespace GridcoreRunner.Stream

set_option autoImplicit false

open GridcoreRunner.Json

/-! ## The flush -/

theorem flush_reached {accepts : Nat → Bool} {api : Surface} {said : List Said} {held : Held}
    {g : GenCtx} (reached : Reached accepts api said held g) (reasoning : Bool)
    (carried : held.on reasoning ≠ [] → Carries api (.text reasoning (held.on reasoning)) = true) :
    Reached accepts api (said ++ rest reasoning (held.on reasoning)) (held.set reasoning [])
      (flushTextDelta accepts reasoning g).g := by
  cases reached with
  | inl lost =>
      have dead := lost.gone.dead
      apply Or.inl
      apply Lost.same (Reached.mono lost _)
      · rw [flushTextDelta]
        split
        · rfl
        · cases reasoning <;> simp [sendTextDeltaRaw, GenCtx.hold, dead]
      · rw [flushTextDelta]
        split
        · exact dead
        · cases reasoning <;> simp [sendTextDeltaRaw, GenCtx.hold, dead]
  | inr both =>
      have later := both.1.hold reasoning []
      rw [flushTextDelta, both.1.held]
      simp only [rest]
      by_cases empty : (held.on reasoning).isEmpty
      · rw [if_pos empty, if_pos empty, List.append_nil]
        refine Or.inr ⟨?_, both.2⟩
        have none_ : held.on reasoning = [] := List.isEmpty_iff.mp empty
        have same : held.set reasoning [] = held := by
          cases reasoning
          · rw [← none_]
            rfl
          · rw [← none_]
            rfl
        rw [same]
        exact both.1
      · rw [if_neg empty, if_neg empty]
        have some_ : held.on reasoning ≠ [] := fun none_ => empty (List.isEmpty_iff.mpr none_)
        have good := @emit_told _ _ _ _ later (.text reasoning (held.on reasoning))
          (by rw [hold_api, both.2]; exact carried some_)
        rw [hold_api, both.2] at good
        exact good_or good

/-- A raw completion holds nothing back as reasoning. -/
theorem offered_reasoning {held : Held} {events : List Event} (empty : held.reasoning = [])
    (offered : ∀ event ∈ events, Offers .text event = true) :
    (hearAll held events).2.reasoning = [] := by
  induction events generalizing held with
  | nil => exact empty
  | cons event events induction =>
      have here := offered event List.mem_cons_self
      apply induction
      · cases event with
        | text reasoning bytes =>
            have content : reasoning = false := by simpa [Offers] using here
            rw [content]
            exact empty
        | callBegin name => cases here
        | callArgs bytes => cases here
        | callEnd => cases here
        | hangup => exact empty
      · exact fun other inside => offered other (List.mem_cons_of_mem _ inside)

/-- After both flushes all was said. -/
theorem flush_both_reached {accepts : Nat → Bool} {api : Surface} {events : List Event} {g : GenCtx}
    (offered : ∀ event ∈ events, Offers api event = true)
    (reached : Reached accepts api (hearAll ⟨[], []⟩ events).1 (hearAll ⟨[], []⟩ events).2 g) :
    Reached accepts api (saidOf events) ⟨[], []⟩ (flushBoth accepts g) := by
  have content := flush_reached reached false (fun _ => by cases api <;> rfl)
  have reasoning := flush_reached content true (by
    intro some_
    cases api with
    | text => exact absurd (offered_reasoning rfl offered) some_
    | chat => rfl
    | responses => rfl
    | messages => rfl)
  rw [List.append_assoc] at reasoning
  exact reasoning

/-! ## The opening -/

theorem opening_responses {accepts : Nat → Bool} {g : GenCtx} (here : Here accepts g)
    (start : g = { GenCtx.init .responses with wire := [.headers] }) :
    Good (RespLost accepts [])
      (fun g' => RespShape accepts Groups.none_ g' ∧ Kept g g' [])
      ((respSend accepts .created g).next (respSend accepts .inProgress)) := by
  have nothing : ∃ told, told <+: ([] : List Group) ∧
      List.Forall₂ Tells ([] : List (Item × List Bytes)) told :=
    ⟨[], List.prefix_refl _, List.Forall₂.nil⟩
  have fields : g.seq = 0 ∧ g.outItems = [] ∧ g.outputIndex = 0 ∧ g.itemOpen = false ∧
      g.itemText = [] ∧ g.closeStatus = none := by
    rw [start]
    exact ⟨rfl, rfl, rfl, rfl, rfl, rfl⟩
  obtain ⟨seq, items, index, closed, text, status⟩ := fields
  have reads : Reader.read g.wire =
      some { stage := .connected, seq := 0, item := none, closed := [] } := by
    rw [start]
    rfl
  apply good_next fun g' => Here accepts g' ∧ g' = sent .created g ∧
    Reader.read g'.wire = some { stage := .created, seq := 1, item := none, closed := [] }
  · apply resp_send_good here reads seq.symm rfl nothing
    exact fun still goes => ⟨still, rfl, goes⟩
  · rintro g' ⟨still, same, goes⟩
    have seq' : g'.seq = 1 := by
      rw [same]
      simp [sent, seq]
    apply resp_send_good still goes seq'.symm rfl nothing
    intro last goes'
    constructor
    · refine ⟨last, ⟨[], ?_, ?_, ?_, List.Forall₂.nil⟩, ?_, ?_⟩
      · rw [goes']
        simp [readerAt, sent, seq', Groups.none_]
      · rw [same]
        exact items.symm
      · rw [same]
        exact index.symm
      · rw [same]
        exact ⟨closed, text⟩
      · rw [same]
        simp [sent, status]
    · rw [same]
      exact (sent_kept rfl).trans (sent_kept rfl)

theorem opening_messages {accepts : Nat → Bool} {g : GenCtx} (here : Here accepts g)
    (start : g = { GenCtx.init .messages with wire := [.headers] }) :
    Good (AnthLost accepts [])
      (fun g' => AnthShape accepts Groups.none_ g' ∧ Kept g g' []) (anthSend accepts .messageStart g) := by
  have reads : BlockReader.read g.wire =
      some { stage := .connected, block := none, closed := [] } := by
    rw [start]
    rfl
  apply anth_send_good here reads rfl
  · exact ⟨[], List.prefix_refl _, rfl⟩
  · intro still goes
    constructor
    · refine ⟨still, goes, ?_, ?_, ?_⟩
      · rw [start]
        rfl
      · rw [start]
        rfl
      · intro group current
        cases current
    · refine ⟨rfl, rfl, rfl, ?_⟩
      rw [sentPlain, texts_append]
      rfl

/-- The headers and the opening. -/
theorem opening_reached (accepts : Nat → Bool) (api : Surface) :
    Good (fun g => g.dead = true ∧ g.wire = [.headers])
      (fun g => Reached accepts api [] ⟨[], []⟩ (opening accepts g).g)
      (sendFrame accepts .headers (GenCtx.init api)) := by
  have fresh : Here accepts (GenCtx.init api) := by
    constructor
    · rfl
    · intro n below
      simp [GenCtx.init] at below
  apply send_frame_good fresh
  · exact fun _ => ⟨rfl, rfl⟩
  · intro here
    have told : ∀ g' : GenCtx, Shape accepts Groups.none_ g' →
        Kept { GenCtx.init api with wire := [.headers], dead := false } g' [] →
        Told accepts [] ⟨[], []⟩ g' ∧ g'.api = api :=
      fun g' shape kept => ⟨⟨shape, kept.pend, kept.pendReason, kept.deltas⟩, kept.api⟩
    rcases surface_cases api with surface | surface | surface | surface
    · subst surface
      have good := resp_surface_good rfl (opening_responses here rfl)
      exact (good_or good).imp id fun done => told _ done.1 done.2
    · subst surface
      have good := anth_surface_good rfl (opening_messages here rfl)
      exact (good_or good).imp id fun done => told _ done.1 done.2
    · subst surface
      have still : Here accepts { GenCtx.init .chat with
          wire := [.headers], dead := false, roleSent := true } := ⟨here.alive, here.taken⟩
      have good := @plain_surface_good accepts Groups.none_ _ _ _ (Or.inl rfl)
        (chunk_good still (Kept.role { GenCtx.init .chat with wire := [.headers] }) .role)
      exact (good_or good).imp id fun done => told _ done.1 done.2
    · subst surface
      exact Or.inr (told _ here (Kept.refl _))

/-! ## The terminal -/

theorem resp_close_dead (accepts : Nat → Bool) {g : GenCtx} (dead : g.dead = true) :
    respCloseItem accepts g = ⟨g, true⟩ := by
  rw [respCloseItem, dead]
  simp

/-- A Responses turn that ended, seen by the reader. -/
structure RespOver (accepts : Nat → Bool) (groups : List Group) (g : GenCtx) : Prop where
  here : Here accepts g
  read : ∃ r, Reader.read g.wire = some r ∧ r.stage = .over ∧ List.Forall₂ Tells r.closed groups

theorem resp_terminal {accepts : Nat → Bool} {groups : Groups} {g : GenCtx}
    (shape : RespShape accepts groups g) (finish : Finish) :
    RespLost accepts groups.close.closed (respTerminal accepts finish g) ∨
      (RespOver accepts groups.close.closed (respTerminal accepts finish g) ∧
        Kept g (respTerminal accepts finish g) []) := by
  rw [respTerminal]
  simp only
  generalize (finish == .length || finish == .reasoningLimit) = cut
  generalize (finish == .envelopeError) = failed
  have marked : ∀ g', g' = (if (cut || failed) && respShapeOf g.itemKind == .message
      then { g with closeStatus := some .incomplete } else g) →
      RespShape accepts groups g' ∧ Kept g g' [] := by
    intro g' same
    rw [same]
    split_ifs
    · exact ⟨⟨⟨shape.here.alive, shape.here.taken⟩, shape.read, shape.emits, by simp⟩, rfl, rfl, rfl,
        (List.append_nil _).symm⟩
    · exact ⟨shape, Kept.refl g⟩
  generalize same : (if (cut || failed) && respShapeOf g.itemKind == .message
      then { g with closeStatus := some .incomplete } else g) = g'
  obtain ⟨shape', kept⟩ := marked g' same.symm
  have closes := resp_close_good shape'
  rcases good_or closes with lost | closes
  · rw [if_pos lost.gone.dead]
    exact Or.inl lost
  · have alive := closes.1.here.alive
    rw [if_neg (by rw [alive]; simp)]
    obtain ⟨closed, reads, items, count, tells⟩ := closes.1.read
    have good : Good (RespLost accepts groups.close.closed)
        (fun last => RespOver accepts groups.close.closed last ∧ Kept g last [])
        (respSend accepts (.finished
          { status := (respStatus cut failed).1, incomplete := (respStatus cut failed).2,
            output := (respCloseItem accepts g').g.outItems,
            outputText := sbEsc (respCloseItem accepts g').g.outText })
          (respCloseItem accepts g').g) := by
      apply resp_send_good closes.1.here reads rfl
      · rw [Reader.event, if_pos ⟨rfl, rfl, items.symm⟩]
      · exact ⟨_, List.prefix_refl _, tells⟩
      · intro still goes
        exact ⟨⟨still, _, goes, rfl, tells⟩, (kept.trans closes.2).trans (sent_kept rfl)⟩
    exact good_or good

/-- A Messages turn that ended, seen by the reader. -/
structure AnthOver (accepts : Nat → Bool) (finish : Finish) (g : GenCtx) : Prop where
  here : Here accepts g
  read : ∃ r, BlockReader.read g.wire = some r ∧
    r.stage = if generationFaulted finish then .failed else .over

theorem anth_terminal {accepts : Nat → Bool} {groups : Groups} {g : GenCtx}
    (shape : AnthShape accepts groups g) (finish : Finish) (stopHit : Option Bytes) :
    (∃ written, AnthLost accepts written (anthTerminal accepts finish stopHit g)) ∨
      (AnthOver accepts finish (anthTerminal accepts finish stopHit g) ∧
        Kept g (anthTerminal accepts finish stopHit g) []) := by
  rw [anthTerminal]
  by_cases faulted : generationFaulted finish = true
  · rw [if_pos faulted, if_neg (by rw [shape.here.alive]; simp)]
    have good : Good (AnthLost accepts groups.closed)
        (fun last => AnthOver accepts finish last ∧ Kept g last [])
        (anthSend accepts (.error (finishDetailOf finish)) g) := by
      apply anth_send_good shape.here shape.read rfl
      · exact ⟨_, List.prefix_refl _, rfl⟩
      · intro still goes
        refine ⟨⟨still, _, goes, by rw [if_pos faulted]⟩, rfl, rfl, rfl, ?_⟩
        rw [sentPlain, texts_append]
        rfl
    exact (good_or good).imp (fun lost => ⟨_, lost⟩) id
  · rw [if_neg faulted]
    simp only
    have opened : ∃ more : Groups, AnthLost accepts more.closed
          (if !g.itemOpen && g.outputIndex == 0 then (anthOpenBlock accepts .message g).g else g) ∨
        (AnthShape accepts more
            (if !g.itemOpen && g.outputIndex == 0 then (anthOpenBlock accepts .message g).g else g) ∧
          Kept g
            (if !g.itemOpen && g.outputIndex == 0 then (anthOpenBlock accepts .message g).g else g)
            []) := by
      split_ifs
      · have good := anth_open_good shape .message
        exact ⟨_, good_or good⟩
      · exact ⟨groups, Or.inr ⟨shape, Kept.refl g⟩⟩
    generalize (if !g.itemOpen && g.outputIndex == 0 then (anthOpenBlock accepts .message g).g
      else g) = g' at opened ⊢
    obtain ⟨more, lost | ⟨shape', kept⟩⟩ := opened
    · have quiet : anthCloseBlock accepts g' = ⟨g', true⟩ := by
        rw [anthCloseBlock, lost.gone.dead]
        simp
      rw [quiet, if_pos lost.gone.dead]
      exact Or.inl ⟨_, lost⟩
    · have closes := anth_close_good shape'
      rcases good_or closes with lost | closes
      · rw [if_pos lost.gone.dead]
        exact Or.inl ⟨_, lost⟩
      · rw [if_neg (by rw [closes.1.here.alive]; simp)]
        have good : Good (AnthLost accepts more.close.closed)
            (fun last => AnthOver accepts finish last ∧ Kept g last [])
            ((anthSend accepts (.messageDelta (anthStopReason finish stopHit.isSome)
              (stopHit.map sbEsc)) (anthCloseBlock accepts g').g).next
                (anthSend accepts .messageStop)) := by
          apply good_next fun last => Here accepts last ∧
            BlockReader.read last.wire =
              some { blockReaderAt more.close with stage := .ended } ∧ Kept g last []
          · apply anth_send_good closes.1.here closes.1.read
            · rw [BlockReader.event, if_pos ⟨rfl, rfl⟩]
            · exact ⟨_, List.prefix_refl _, rfl⟩
            · intro still goes
              refine ⟨still, goes, (kept.trans closes.2).trans ⟨rfl, rfl, rfl, ?_⟩⟩
              rw [sentPlain, texts_append]
              rfl
          · rintro last ⟨still, goes, kept'⟩
            apply anth_send_good still goes rfl
            · exact ⟨_, List.prefix_refl _, rfl⟩
            · intro still' goes'
              refine ⟨⟨still', _, goes', by rw [if_neg faulted]⟩, kept'.trans ⟨rfl, rfl, rfl, ?_⟩⟩
              rw [sentPlain, texts_append]
              rfl
        exact (good_or good).imp (fun lost => ⟨_, lost⟩) id

/-- A client that is gone stays gone. -/
theorem chunk_send_dead (accepts : Nat → Bool) {g : GenCtx} (dead : g.dead = true) (chunk : Chunk) :
    (chunkSend accepts chunk g).rc = true ∧ (chunkSend accepts chunk g).g.dead = true := by
  rw [chunkSend, sendFrame, dead]
  exact ⟨rfl, rfl⟩

theorem chunk_terminal {accepts : Nat → Bool} {g : GenCtx} (here : Here accepts g) (finish : Finish)
    (logprobs usage : Bool) :
    (chunkTerminal accepts finish logprobs usage g).dead = true ∨
      (Here accepts (chunkTerminal accepts finish logprobs usage g) ∧
        Kept g (chunkTerminal accepts finish logprobs usage g) []) := by
  rw [chunkTerminal, if_neg (by rw [here.alive]; simp)]
  dsimp only
  have scored : (if logprobs then (chunkSend accepts .logprobs g).g else g).dead = true ∨
      (Here accepts (if logprobs then (chunkSend accepts .logprobs g).g else g) ∧
        Kept g (if logprobs then (chunkSend accepts .logprobs g).g else g) []) := by
    split_ifs
    · exact (good_or (chunk_good here (Kept.refl g) .logprobs)).imp Gone.dead id
    · exact Or.inr ⟨here, Kept.refl g⟩
  generalize (if logprobs then (chunkSend accepts .logprobs g).g else g) = g' at scored ⊢
  rcases scored with dead | ⟨here', kept'⟩
  · have silent := chunk_send_dead accepts dead (.finish (openaiFinish finish) (finishDetailOf finish))
    rw [Answer.next, if_pos silent.1]
    exact Or.inl silent.2
  have good : Good (Gone accepts) (fun last => Here accepts last ∧ Kept g last [])
      ((chunkSend accepts (.finish (openaiFinish finish) (finishDetailOf finish)) g').next fun g =>
        (if usage then chunkSend accepts .usage g else Answer.mk g false).next
          (chunkSend accepts .done)) := by
    apply good_next _ (chunk_good here' kept' _)
    rintro g'' ⟨here'', kept''⟩
    apply good_next fun last => Here accepts last ∧ Kept g last []
    · split_ifs
      · exact chunk_good here'' kept'' _
      · exact good_zero ⟨here'', kept''⟩
    · rintro last ⟨still, goes⟩
      exact chunk_good still goes _
  exact (good_or good).imp Gone.dead id

/-! ## The whole turn -/

theorem terminal_dead (accepts : Nat → Bool) (ending : Ending) {g : GenCtx} (dead : g.dead = true) :
    (terminal accepts ending g).wire = g.wire ∧ (terminal accepts ending g).dead = true := by
  rcases surface_cases g.api with surface | surface | surface | surface
  · have marked : ∀ g' : GenCtx, g'.wire = g.wire → g'.dead = true →
        (respCloseItem accepts g').g.wire = g.wire ∧ (respCloseItem accepts g').g.dead = true := by
      intro g' wire gone
      rw [resp_close_dead accepts gone]
      exact ⟨wire, gone⟩
    rw [terminal, surface]
    simp only [respTerminal]
    generalize (ending.finish == .length || ending.finish == .reasoningLimit) = cut
    generalize (ending.finish == .envelopeError) = failed
    have closed := marked (if (cut || failed) && respShapeOf g.itemKind == .message
        then { g with closeStatus := some .incomplete } else g)
      (by split_ifs <;> rfl) (by split_ifs <;> exact dead)
    rw [if_pos closed.2]
    exact closed
  · have closed : ∀ g' : GenCtx, g'.dead = true → anthCloseBlock accepts g' = ⟨g', true⟩ := by
      intro g' gone
      simp [anthCloseBlock, gone]
    have opened : !g.itemOpen && g.outputIndex == 0 →
        (anthOpenBlock accepts .message g).g = g := by
      intro none_
      have shut : g.itemOpen = false := by simpa using (Bool.and_eq_true _ _).mp none_ |>.1
      simp [anthOpenBlock, shut, closed g dead]
    rw [terminal, surface]
    simp only [anthTerminal]
    by_cases faulted : generationFaulted ending.finish = true
    · rw [if_pos faulted, if_pos dead]
      exact ⟨rfl, dead⟩
    · rw [if_neg faulted]
      have same : (if !g.itemOpen && g.outputIndex == 0 then (anthOpenBlock accepts .message g).g
          else g) = g := by
        by_cases none_ : (!g.itemOpen && g.outputIndex == 0) = true
        · rw [if_pos none_, opened none_]
        · rw [if_neg none_]
      rw [same, closed g dead, if_pos dead]
      exact ⟨rfl, dead⟩
  · simp [terminal, surface, chunkTerminal, dead]
  · simp [terminal, surface, chunkTerminal, dead]

/-- The client was lost during the turn. -/
def LostTurn (accepts : Nat → Bool) (api : Surface) (groups : List Group) (g : GenCtx) : Prop :=
  match api with
  | .responses => RespLost accepts groups g
  | .messages => ∃ written, AnthLost accepts written g
  | _ => g.dead = true

/-- The terminal is on the wire. -/
def OverTurn (accepts : Nat → Bool) (api : Surface) (finish : Finish) (groups : List Group)
    (g : GenCtx) : Prop :=
  match api with
  | .responses => RespOver accepts groups g
  | .messages => AnthOver accepts finish g
  | _ => Here accepts g

theorem Lost.turn {accepts : Nat → Bool} {api : Surface} {groups : List Group} {g : GenCtx}
    (lost : Lost accepts api groups g) : LostTurn accepts api groups g := by
  cases api with
  | responses => exact lost
  | messages => exact ⟨groups, lost⟩
  | text => exact lost.dead
  | chat => exact lost.dead

/-- The headers did not go out. -/
theorem headers_lost {accepts : Nat → Bool} {api : Surface} (groups : List Group) {g : GenCtx}
    (dead : g.dead = true) (wire : g.wire = [.headers]) : Lost accepts api groups g := by
  have gone : Gone accepts g := by
    constructor
    · exact dead
    · intro n below
      rw [wire] at below
      simp at below
  cases api with
  | responses =>
      refine ⟨gone, { stage := .connected, seq := 0, item := none, closed := [] }, ?_, [],
        List.nil_prefix, List.Forall₂.nil⟩
      rw [wire]
      rfl
  | messages =>
      refine ⟨gone, { stage := .connected, block := none, closed := [] }, ?_, [],
        List.nil_prefix, rfl⟩
      rw [wire]
      rfl
  | text => exact gone
  | chat => exact gone

theorem terminal_ends {accepts : Nat → Bool} {api : Surface} {said : List Said} {held : Held}
    {g : GenCtx} (reached : Reached accepts api said held g) (ending : Ending) :
    LostTurn accepts api (groupsOf said).close.closed (terminal accepts ending g) ∨
      (OverTurn accepts api ending.finish (groupsOf said).close.closed (terminal accepts ending g) ∧
        texts (terminal accepts ending g).wire = said.filterMap Said.told) := by
  rcases reached with lost | ⟨told, surface⟩
  · have quiet := terminal_dead accepts ending lost.gone.dead
    exact Or.inl ((lost.same quiet.1 quiet.2).mono (close_grows _)).turn
  · have spoken : ∀ g', Kept g g' [] → texts g'.wire = said.filterMap Said.told := by
      intro g' kept
      rw [kept.deltas, told.deltas, List.append_nil]
    rw [terminal, surface]
    cases api with
    | responses =>
        exact (resp_terminal (told.shape.resp surface) ending.finish).imp id
          fun done => ⟨done.1, spoken _ done.2⟩
    | messages =>
        exact (anth_terminal (told.shape.anth surface) ending.finish ending.stopHit).imp id
          fun done => ⟨done.1, spoken _ done.2⟩
    | chat =>
        exact (chunk_terminal told.shape.here ending.finish ending.logprobs ending.usage).imp id
          fun done => ⟨done.1, spoken _ done.2⟩
    | text =>
        exact (chunk_terminal told.shape.here ending.finish ending.logprobs ending.usage).imp id
          fun done => ⟨done.1, spoken _ done.2⟩

/-- Every turn ends in one of two ways. -/
theorem turn_ends (accepts : Nat → Bool) (api : Surface) {events late : List Event}
    (offered : ∀ event ∈ events ++ late, Offers api event = true) (ending : Ending) :
    LostTurn accepts api (turnGroups (events ++ late)) (streamTurn accepts api events late ending) ∨
      (OverTurn accepts api ending.finish (turnGroups (events ++ late))
          (streamTurn accepts api events late ending) ∧
        texts (streamTurn accepts api events late ending).wire =
          (saidOf (events ++ late)).filterMap Said.told) := by
  have start := opening_reached accepts api
  unfold Good at start
  rw [streamTurn]
  simp only
  split_ifs at start with refused
  · rw [if_pos refused]
    exact Or.inl (headers_lost _ start.1 start.2).turn
  · rw [if_neg refused]
    have fed := feed_reached start fun event inside => offered event (List.mem_append_left _ inside)
    rw [List.nil_append] at fed
    by_cases dead : (feed accepts events
        (opening accepts (sendFrame accepts .headers (GenCtx.init api)).g).g).dead = true
    · rw [if_pos dead]
      rcases fed with lost | ⟨told, -⟩
      · apply Or.inl
        have longer : (hearAll ⟨[], []⟩ events).1 <+: saidOf (events ++ late) := by
          rw [saidOf, hear_all_append, List.append_assoc]
          exact List.prefix_append _ _
        obtain ⟨more, same⟩ := longer
        rw [turnGroups, ← same]
        exact ((Reached.mono lost more).mono (close_grows _)).turn
      · rw [told.shape.here.alive] at dead
        cases dead
    · rw [if_neg dead]
      have both := feed_reached fed fun event inside =>
        offered event (List.mem_append_right _ inside)
      have heard := hear_all_append ⟨[], []⟩ events late
      have flushed := flush_both_reached offered (by rw [heard]; exact both)
      exact terminal_ends flushed ending

end GridcoreRunner.Stream
