import GridcoreRunner.Stream.Messages

/-!
# Whole turns

Every sink keeps the promise of its surface, so a whole turn does: the wire holds what
was said so far, or the client was lost and nothing was written afterwards.
-/

namespace GridcoreRunner.Stream

set_option autoImplicit false

open GridcoreRunner.Json

section Surfaces

variable (accepts : Nat → Bool)

/-- The wire against the groups, surface by surface. -/
def Shape (groups : Groups) (g : GenCtx) : Prop :=
  match g.api with
  | .responses => RespShape accepts groups g
  | .messages => AnthShape accepts groups g
  | _ => Here accepts g

/-- The client was lost while the groups were being written. -/
def Lost (api : Surface) (groups : List Group) (g : GenCtx) : Prop :=
  match api with
  | .responses => RespLost accepts groups g
  | .messages => AnthLost accepts groups g
  | _ => Gone accepts g

/-- Writes what passed the holds. -/
def emit (one : Said) (g : GenCtx) : Answer :=
  match one with
  | .text reasoning piece => sendTextDeltaRaw accepts reasoning piece g
  | .callBegin name => sinkCallBegin accepts name g
  | .callArgs piece => sinkCallArgs accepts piece g
  | .callEnd => sinkCallEnd accepts g

end Surfaces

/-- A raw completion has content only: no splitter and no envelope stands in front
of it. -/
def Offers : Surface → Event → Bool
  | .text, .text reasoning _ => !reasoning
  | .text, .hangup => true
  | .text, _ => false
  | _, _ => true

/-- The same for what passed the holds. -/
def Carries : Surface → Said → Bool
  | .text, .text reasoning _ => !reasoning
  | .text, _ => false
  | _, _ => true

theorem Shape.here {accepts : Nat → Bool} {groups : Groups} {g : GenCtx}
    (shape : Shape accepts groups g) : Here accepts g := by
  unfold Shape at shape
  split at shape
  · exact RespShape.here shape
  · exact AnthShape.here shape
  · exact shape

theorem Lost.gone {accepts : Nat → Bool} {api : Surface} {groups : List Group} {g : GenCtx}
    (lost : Lost accepts api groups g) : Gone accepts g := by
  unfold Lost at lost
  split at lost
  · exact RespLost.gone lost
  · exact AnthLost.gone lost
  · exact lost

theorem Lost.mono {accepts : Nat → Bool} {api : Surface} {groups more : List Group} {g : GenCtx}
    (lost : Lost accepts api groups g) (longer : groups <+: more) : Lost accepts api more g := by
  unfold Lost at lost ⊢
  split at lost
  · exact RespLost.mono lost longer
  · exact AnthLost.mono lost longer
  · exact lost

/-- Only the wire says what was lost. -/
theorem Lost.same {accepts : Nat → Bool} {api : Surface} {groups : List Group} {g g' : GenCtx}
    (lost : Lost accepts api groups g) (wire : g'.wire = g.wire) (dead : g'.dead = true) :
    Lost accepts api groups g' := by
  have gone : Gone accepts g' := ⟨dead, by rw [wire]; exact lost.gone.taken⟩
  unfold Lost at lost ⊢
  cases api with
  | responses => exact ⟨gone, by rw [wire]; exact RespLost.read lost⟩
  | messages => exact ⟨gone, by rw [wire]; exact AnthLost.read lost⟩
  | text => exact gone
  | chat => exact gone

/-- What a surface does not look at may change. -/
theorem Shape.change {accepts : Nat → Bool} {groups : Groups} {g g' : GenCtx}
    (shape : Shape accepts groups g) (api : g'.api = g.api) (dead : g'.dead = g.dead)
    (wire : g'.wire = g.wire) (seq : g'.seq = g.seq) (index : g'.outputIndex = g.outputIndex)
    (itemOpen : g'.itemOpen = g.itemOpen) (partOpen : g'.partOpen = g.partOpen)
    (same : SameItem g g') : Shape accepts groups g' := by
  have here : Here accepts g' := by
    constructor
    · rw [dead]
      exact shape.here.alive
    · rw [wire]
      exact shape.here.taken
  unfold Shape at shape ⊢
  rw [api]
  split at shape
  · refine ⟨here, ?_, ?_, ?_⟩
    · rw [wire, seq, same.items, index]
      exact shape.read
    · have emits := shape.emits
      unfold Emits at emits ⊢
      rw [itemOpen, partOpen, same.text, same.kind, same.id, index]
      exact emits
    · rw [same.status]
      exact shape.status
  · refine ⟨here, ?_, ?_, ?_, ?_⟩
    · rw [wire]
      exact shape.read
    · rw [index]
      exact shape.count
    · rw [itemOpen]
      exact shape.opened
    · rw [same.kind]
      exact shape.kind
  · exact here

/-! ## One thing said -/

theorem resp_surface_good {accepts : Nat → Bool} {groups : Groups} {g : GenCtx} {answer : Answer}
    {wrote : List (Kind × Bytes)} (surface : g.api = .responses)
    (good : Good (RespLost accepts groups.closed)
      (fun g' => RespShape accepts groups g' ∧ Kept g g' wrote) answer) :
    Good (Lost accepts g.api groups.closed)
      (fun g' => Shape accepts groups g' ∧ Kept g g' wrote) answer := by
  rw [surface]
  apply good_mono good
  · exact fun _ lost => lost
  · rintro g' ⟨shape, kept⟩
    refine ⟨?_, kept⟩
    unfold Shape
    rw [kept.api, surface]
    exact shape

theorem anth_surface_good {accepts : Nat → Bool} {groups : Groups} {g : GenCtx} {answer : Answer}
    {wrote : List (Kind × Bytes)} (surface : g.api = .messages)
    (good : Good (AnthLost accepts groups.closed)
      (fun g' => AnthShape accepts groups g' ∧ Kept g g' wrote) answer) :
    Good (Lost accepts g.api groups.closed)
      (fun g' => Shape accepts groups g' ∧ Kept g g' wrote) answer := by
  rw [surface]
  apply good_mono good
  · exact fun _ lost => lost
  · rintro g' ⟨shape, kept⟩
    refine ⟨?_, kept⟩
    unfold Shape
    rw [kept.api, surface]
    exact shape

/-- The two surfaces without typed events. -/
def Plain (api : Surface) : Prop := api = .chat ∨ api = .text

theorem plain_surface_good {accepts : Nat → Bool} {groups : Groups} {g : GenCtx} {answer : Answer}
    {wrote : List (Kind × Bytes)} (surface : Plain g.api)
    (good : Good (Gone accepts) (fun g' => Here accepts g' ∧ Kept g g' wrote) answer) :
    Good (Lost accepts g.api groups.closed)
      (fun g' => Shape accepts groups g' ∧ Kept g g' wrote) answer := by
  apply good_mono good
  · intro g' gone
    cases surface with
    | inl chat =>
        rw [chat]
        exact gone
    | inr text =>
        rw [text]
        exact gone
  · rintro g' ⟨here, kept⟩
    refine ⟨?_, kept⟩
    unfold Shape
    rw [kept.api]
    cases surface with
    | inl chat =>
        rw [chat]
        exact here
    | inr text =>
        rw [text]
        exact here

theorem chunk_good {accepts : Nat → Bool} {g g' : GenCtx} (here : Here accepts g')
    (start : Kept g g' []) (chunk : Chunk) :
    Good (Gone accepts)
      (fun last => Here accepts last ∧ Kept g last (frameText (.chunk chunk)).toList)
      (chunkSend accepts chunk g') := by
  apply send_frame_good here
  · exact id
  · intro still
    refine ⟨still, start.api, start.pend, start.pendReason, ?_⟩
    rw [texts_append, start.deltas, List.append_nil]
    rfl

/-- The role goes out once. -/
theorem Kept.role (g : GenCtx) : Kept g { g with roleSent := true } [] :=
  ⟨rfl, rfl, rfl, (List.append_nil _).symm⟩

theorem Shape.resp {accepts : Nat → Bool} {groups : Groups} {g : GenCtx}
    (shape : Shape accepts groups g) (surface : g.api = .responses) : RespShape accepts groups g := by
  unfold Shape at shape
  rw [surface] at shape
  exact shape

theorem Shape.anth {accepts : Nat → Bool} {groups : Groups} {g : GenCtx}
    (shape : Shape accepts groups g) (surface : g.api = .messages) : AnthShape accepts groups g := by
  unfold Shape at shape
  rw [surface] at shape
  exact shape

theorem surface_cases (api : Surface) :
    api = .responses ∨ api = .messages ∨ api = .chat ∨ api = .text := by
  cases api <;> simp

theorem emit_text_good {accepts : Nat → Bool} {groups : Groups} {g : GenCtx}
    (shape : Shape accepts groups g) {reasoning : Bool} {piece : Bytes}
    (carried : Carries g.api (.text reasoning piece) = true) :
    Good (Lost accepts g.api (groups.step (.text reasoning piece)).closed)
      (fun g' => Shape accepts (groups.step (.text reasoning piece)) g' ∧
        Kept g g' [(channelKind reasoning, sbEsc piece)])
      (sendTextDeltaRaw accepts reasoning piece g) := by
  have alive := shape.here.alive
  rcases surface_cases g.api with surface | surface | surface | surface
  · have goes : sendTextDeltaRaw accepts reasoning piece g =
        respDelta accepts (channelKind reasoning) piece g := by
      simp [sendTextDeltaRaw, alive, surface]
    rw [goes]
    exact resp_surface_good surface (resp_delta_good (shape.resp surface) _ piece)
  · have goes : sendTextDeltaRaw accepts reasoning piece g =
        anthDelta accepts (channelKind reasoning) piece g := by
      simp [sendTextDeltaRaw, alive, surface]
    rw [goes]
    exact anth_surface_good surface (anth_delta_good (shape.anth surface) _ piece)
  · have goes : sendTextDeltaRaw accepts reasoning piece g =
        chunkSend accepts (.delta (!g.roleSent) reasoning (sbEsc piece))
          { g with roleSent := true } := by
      simp [sendTextDeltaRaw, alive, surface]
    rw [goes]
    apply plain_surface_good (Or.inl surface)
    have here : Here accepts { g with roleSent := true } := ⟨alive, shape.here.taken⟩
    exact chunk_good here (Kept.role g) _
  · rw [surface] at carried
    have content : reasoning = false := by simpa [Carries] using carried
    have goes : sendTextDeltaRaw accepts false piece g =
        chunkSend accepts (.completion (sbEsc piece)) g := by
      simp [sendTextDeltaRaw, alive, surface]
    rw [content, goes]
    apply plain_surface_good (Or.inr surface)
    exact chunk_good shape.here (Kept.refl g) _

theorem call_begin_good {accepts : Nat → Bool} {groups : Groups} {g : GenCtx}
    (shape : Shape accepts groups g) {name : Bytes} (carried : Carries g.api (.callBegin name) = true) :
    Good (Lost accepts g.api (groups.turnTo .functionCall).closed)
      (fun g' => Shape accepts (groups.turnTo .functionCall) g' ∧ Kept g g' [])
      (sinkCallBegin accepts name g) := by
  have alive := shape.here.alive
  have named : Shape accepts groups { g with callName := some name } :=
    shape.change rfl rfl rfl rfl rfl rfl rfl ⟨rfl, rfl, rfl, rfl, rfl, rfl⟩
  rcases surface_cases g.api with surface | surface | surface | surface
  · have goes : sinkCallBegin accepts name g =
        respOpenItem accepts .functionCall { g with callName := some name } := by
      simp [sinkCallBegin, alive, surface]
    rw [goes]
    apply resp_surface_good surface
    apply good_mono (resp_open_good (named.resp surface) .functionCall) (fun _ lost => lost)
    rintro g' ⟨shape', kept⟩
    exact ⟨shape', ⟨kept.api, kept.pend, kept.pendReason, kept.deltas⟩⟩
  · have goes : sinkCallBegin accepts name g =
        anthOpenBlock accepts .functionCall { g with callName := some name } := by
      simp [sinkCallBegin, alive, surface]
    rw [goes]
    apply anth_surface_good surface
    apply good_mono (anth_open_good (named.anth surface) .functionCall) (fun _ lost => lost)
    rintro g' ⟨shape', kept⟩
    exact ⟨shape', ⟨kept.api, kept.pend, kept.pendReason, kept.deltas⟩⟩
  · have goes : sinkCallBegin accepts name g =
        chunkSend accepts (.callBegin (!g.roleSent) g.toolIndex (sbEsc name))
          { g with roleSent := true } := by
      simp [sinkCallBegin, alive, surface]
    rw [goes]
    apply plain_surface_good (Or.inl surface)
    have here : Here accepts { g with roleSent := true } := ⟨alive, shape.here.taken⟩
    exact chunk_good here (Kept.role g) _
  · rw [surface] at carried
    cases carried

theorem call_args_good {accepts : Nat → Bool} {groups : Groups} {g : GenCtx}
    (shape : Shape accepts groups g) {piece : Bytes}
    (carried : Carries g.api (.callArgs piece) = true) :
    Good (Lost accepts g.api (groups.step (.callArgs piece)).closed)
      (fun g' => Shape accepts (groups.step (.callArgs piece)) g' ∧
        Kept g g' [(.functionCall, sbEsc piece)])
      (sinkCallArgs accepts piece g) := by
  have alive := shape.here.alive
  rcases surface_cases g.api with surface | surface | surface | surface
  · have goes : sinkCallArgs accepts piece g = respDelta accepts .functionCall piece g := by
      simp [sinkCallArgs, alive, surface]
    rw [goes]
    exact resp_surface_good surface (resp_delta_good (shape.resp surface) _ piece)
  · have goes : sinkCallArgs accepts piece g = anthDelta accepts .functionCall piece g := by
      simp [sinkCallArgs, alive, surface]
    rw [goes]
    exact anth_surface_good surface (anth_delta_good (shape.anth surface) _ piece)
  · have goes : sinkCallArgs accepts piece g =
        chunkSend accepts (.callArgs g.toolIndex (sbEsc piece)) g := by
      simp [sinkCallArgs, alive, surface]
    rw [goes]
    apply plain_surface_good (Or.inl surface)
    exact chunk_good shape.here (Kept.refl g) _
  · rw [surface] at carried
    cases carried

theorem call_end_good {accepts : Nat → Bool} {groups : Groups} {g : GenCtx}
    (shape : Shape accepts groups g) (carried : Carries g.api .callEnd = true) :
    Good (Lost accepts g.api groups.close.closed)
      (fun g' => Shape accepts groups.close g' ∧ Kept g g' []) (sinkCallEnd accepts g) := by
  rw [sinkCallEnd]
  apply good_unless (fun g' => Shape accepts groups.close g' ∧ Kept g g' [])
    (fun g' => { g' with toolIndex := g'.toolIndex + 1 })
  · rcases surface_cases g.api with surface | surface | surface | surface
    · have good := resp_surface_good surface (resp_close_good (shape.resp surface))
      rw [surface] at good ⊢
      exact good
    · have good := anth_surface_good surface (anth_close_good (shape.anth surface))
      rw [surface] at good ⊢
      exact good
    · have good : Good (Lost accepts g.api groups.close.closed)
          (fun g' => Shape accepts groups.close g' ∧ Kept g g' []) ⟨g, false⟩ :=
        plain_surface_good (Or.inl surface) (good_zero ⟨shape.here, Kept.refl g⟩)
      rw [surface] at good ⊢
      exact good
    · rw [surface] at carried
      cases carried
  · rintro g' ⟨shape', kept⟩
    exact ⟨shape'.change rfl rfl rfl rfl rfl rfl rfl ⟨rfl, rfl, rfl, rfl, rfl, rfl⟩,
      ⟨kept.api, kept.pend, kept.pendReason, kept.deltas⟩⟩

/-- Every sink behind the holds keeps the wire and the groups together. -/
theorem emit_good {accepts : Nat → Bool} {groups : Groups} {g : GenCtx}
    (shape : Shape accepts groups g) {one : Said} (carried : Carries g.api one = true) :
    Good (Lost accepts g.api (groups.step one).closed)
      (fun g' => Shape accepts (groups.step one) g' ∧ Kept g g' one.told.toList)
      (emit accepts one g) := by
  cases one with
  | text reasoning piece => exact emit_text_good shape carried
  | callBegin name => exact call_begin_good shape carried
  | callArgs piece => exact call_args_good shape carried
  | callEnd => exact call_end_good shape carried

/-! ## Events -/

/-- What was said is on the wire, and the rest is held. -/
structure Told (accepts : Nat → Bool) (said : List Said) (held : Held) (g : GenCtx) : Prop where
  shape : Shape accepts (groupsOf said) g
  content : g.pend = held.content
  reasoning : g.pendReason = held.reasoning
  deltas : texts g.wire = said.filterMap Said.told

theorem Told.held {accepts : Nat → Bool} {said : List Said} {held : Held} {g : GenCtx}
    (told : Told accepts said held g) (reasoning : Bool) : g.held reasoning = held.on reasoning := by
  cases reasoning
  · exact told.content
  · exact told.reasoning

theorem Told.hold {accepts : Nat → Bool} {said : List Said} {held : Held} {g : GenCtx}
    (told : Told accepts said held g) (reasoning : Bool) (bytes : Bytes) :
    Told accepts said (held.set reasoning bytes) (g.hold reasoning bytes) := by
  cases reasoning
  · exact ⟨told.shape.change rfl rfl rfl rfl rfl rfl rfl ⟨rfl, rfl, rfl, rfl, rfl, rfl⟩, rfl,
      told.reasoning, told.deltas⟩
  · exact ⟨told.shape.change rfl rfl rfl rfl rfl rfl rfl ⟨rfl, rfl, rfl, rfl, rfl, rfl⟩,
      told.content, rfl, told.deltas⟩

theorem hold_api (g : GenCtx) (reasoning : Bool) (bytes : Bytes) :
    (g.hold reasoning bytes).api = g.api := by
  cases reasoning <;> rfl

theorem emit_told {accepts : Nat → Bool} {said : List Said} {held : Held} {g : GenCtx}
    (told : Told accepts said held g) {one : Said} (carried : Carries g.api one = true) :
    Good (Lost accepts g.api (groupsOf (said ++ [one])).closed)
      (fun g' => Told accepts (said ++ [one]) held g' ∧ g'.api = g.api) (emit accepts one g) := by
  rw [groups_of_concat]
  apply good_mono (emit_good told.shape carried) (fun _ lost => lost)
  rintro g' ⟨shape, kept⟩
  refine ⟨⟨?_, kept.pend.trans told.content, kept.pendReason.trans told.reasoning, ?_⟩, kept.api⟩
  · rw [groups_of_concat]
    exact shape
  · rw [kept.deltas, told.deltas, List.filterMap_append]
    rfl

/-- Where the client leaves. -/
theorem Shape.hangup {accepts : Nat → Bool} {groups : Groups} {g : GenCtx}
    (shape : Shape accepts groups g) :
    Lost accepts g.api groups.closed { g with dead := true } := by
  have gone := shape.here.hangup
  unfold Shape at shape
  unfold Lost
  split
  · rename_i surface
    rw [surface] at shape
    obtain ⟨closed, reads, -, -, tells⟩ := shape.read
    exact ⟨gone, _, reads, groups.closed, List.prefix_refl _, tells⟩
  · rename_i surface
    rw [surface] at shape
    exact ⟨gone, _, shape.read, groups.closed, List.prefix_refl _, rfl⟩
  · exact gone

theorem sink_told {accepts : Nat → Bool} {said : List Said} {held : Held} {g : GenCtx}
    (told : Told accepts said held g) {event : Event} (offered : Offers g.api event = true) :
    Good (Lost accepts g.api (groupsOf (said ++ (hear held event).1)).closed)
      (fun g' => Told accepts (said ++ (hear held event).1) (hear held event).2 g' ∧
        g'.api = g.api)
      (sink accepts event g) := by
  have alive := told.shape.here.alive
  cases event with
  | text reasoning bytes =>
      have later := told.hold reasoning (splice (held.on reasoning) bytes).2
      simp only [sink, sendTextDelta, hear, told.held]
      rw [if_neg (by rw [alive]; simp)]
      cases out : (splice (held.on reasoning) bytes).1 with
      | none =>
          simp only [Option.map_none, Option.toList_none, List.append_nil]
          exact good_zero ⟨later, hold_api _ _ _⟩
      | some piece =>
          simp only [Option.map_some, Option.toList_some]
          have carried : Carries (g.hold reasoning (splice (held.on reasoning) bytes).2).api
              (.text reasoning piece) = true := by
            rw [hold_api]
            cases surface : g.api with
            | text =>
                rw [surface] at offered
                exact offered
            | chat => rfl
            | responses => rfl
            | messages => rfl
          have good := emit_told later carried
          rw [hold_api] at good
          exact good
  | callBegin name =>
      apply emit_told told
      cases surface : g.api with
      | text =>
          rw [surface] at offered
          exact offered
      | chat => rfl
      | responses => rfl
      | messages => rfl
  | callArgs bytes =>
      apply emit_told told
      cases surface : g.api with
      | text =>
          rw [surface] at offered
          exact offered
      | chat => rfl
      | responses => rfl
      | messages => rfl
  | callEnd =>
      apply emit_told told
      cases surface : g.api with
      | text =>
          rw [surface] at offered
          exact offered
      | chat => rfl
      | responses => rfl
      | messages => rfl
  | hangup =>
      simp only [hear, List.append_nil]
      exact told.shape.hangup

/-- Nothing is written to a client that is gone. -/
theorem sink_dead (accepts : Nat → Bool) {g : GenCtx} (dead : g.dead = true) (event : Event) :
    (sink accepts event g).g.wire = g.wire ∧ (sink accepts event g).g.dead = true := by
  cases event with
  | text reasoning bytes => simp [sink, sendTextDelta, dead]
  | callBegin name => simp [sink, sinkCallBegin, dead]
  | callArgs bytes => simp [sink, sinkCallArgs, dead]
  | callEnd =>
      rw [sink, sinkCallEnd]
      cases surface : g.api with
      | responses => simp [respCloseItem, dead]
      | messages => simp [anthCloseBlock, dead]
      | chat => simp [dead]
      | text => simp [dead]
  | hangup => simp [sink]

/-- How far a turn came. -/
def Reached (accepts : Nat → Bool) (api : Surface) (said : List Said) (held : Held) (g : GenCtx) :
    Prop :=
  Lost accepts api (groupsOf said).closed g ∨ (Told accepts said held g ∧ g.api = api)

theorem Reached.mono {accepts : Nat → Bool} {api : Surface} {said : List Said} {g : GenCtx}
    (lost : Lost accepts api (groupsOf said).closed g) (more : List Said) :
    Lost accepts api (groupsOf (said ++ more)).closed g := by
  apply lost.mono
  rw [groups_of_append]
  exact fold_grows _ _

theorem sink_reached {accepts : Nat → Bool} {api : Surface} {said : List Said} {held : Held}
    {g : GenCtx} (reached : Reached accepts api said held g) {event : Event}
    (offered : Offers api event = true) :
    Reached accepts api (said ++ (hear held event).1) (hear held event).2
      (sink accepts event g).g := by
  cases reached with
  | inl lost =>
      have quiet := sink_dead accepts lost.gone.dead event
      exact Or.inl (Lost.same (Reached.mono lost _) quiet.1 quiet.2)
  | inr both =>
      have good := @sink_told _ _ _ _ both.1 event (by rw [both.2]; exact offered)
      rw [both.2] at good
      exact good_or good

/-- A whole run of events. -/
theorem feed_reached {accepts : Nat → Bool} {api : Surface} {said : List Said} {held : Held}
    {g : GenCtx} (reached : Reached accepts api said held g) {events : List Event}
    (offered : ∀ event ∈ events, Offers api event = true) :
    Reached accepts api (said ++ (hearAll held events).1) (hearAll held events).2
      (feed accepts events g) := by
  induction events generalizing said held g with
  | nil =>
      simp only [hearAll, List.append_nil]
      exact reached
  | cons event events induction =>
      have step := sink_reached reached (offered event List.mem_cons_self)
      have later := induction step fun other inside => offered other (List.mem_cons_of_mem _ inside)
      rw [List.append_assoc] at later
      exact later

end GridcoreRunner.Stream
