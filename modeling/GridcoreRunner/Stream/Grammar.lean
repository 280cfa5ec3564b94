import GridcoreRunner.Stream.Framing

/-!
# The grammar of the event streams

What the two readers accept, for whole turns: the numbers run without a gap, items
and blocks open and close in turn, the terminal lists what was closed, and a write
that failed is the last one. The text of a closed item is the sum of its deltas
exactly when no argument piece cuts a character.
-/

namespace GridcoreRunner.Stream

set_option autoImplicit false

open GridcoreRunner.Json

/-- The text of a closed item is what its deltas read as, one after another. -/
def Sums (entry : Item × List Bytes) : Prop :=
  entry.1.text.bind decodeContent = (entry.2.mapM decodeContent).map List.flatten

/-- Nothing was written after a write had failed. -/
def Quiet (accepts : Nat → Bool) (wire : List Frame) : Prop :=
  ∀ n, n + 1 < wire.length → accepts n = true

/-- A lawful event stream: the reader takes every event, it is at the end of the
stream when the client stayed, and the texts add up. -/
def Lawful (accepts : Nat → Bool) (api : Surface) (finish : Finish) (g : GenCtx) : Prop :=
  Quiet accepts g.wire ∧
    match api with
    | .responses => ∃ r, Reader.read g.wire = some r ∧ (g.dead = false → r.stage = .over) ∧
        ∀ entry ∈ r.closed, Sums entry
    | .messages => ∃ r, BlockReader.read g.wire = some r ∧
        (g.dead = false → r.stage = if generationFaulted finish then .failed else .over)
    | _ => True

/-- No item of a call takes pieces that cut a character. -/
def CallsWhole (events : List Event) : Prop :=
  ∀ group ∈ turnGroups events, group.kind = .functionCall → NoneCut group.pieces

theorem sums_iff {entry : Item × List Bytes} {group : Group} (tells : Tells entry group) :
    Sums entry ↔ NoneCut group.pieces := by
  obtain ⟨-, text, deltas⟩ := tells
  rw [Sums, text, deltas, decode_pieces, Option.bind_some, decode_sb_esc, Option.map_some,
    Option.some.injEq, ← cleaned_pieces]
  exact ⟨fun same => same.symm, fun same => same.symm⟩

/-- Only a call's group can cut a character. -/
theorem group_whole {events : List Event} (whole : CallsWhole events) {group : Group}
    (inside : group ∈ turnGroups events) : NoneCut group.pieces := by
  cases kind : group.kind with
  | message => exact @text_group_none_cut events group inside false kind
  | reasoning => exact @text_group_none_cut events group inside true kind
  | functionCall => exact whole group inside kind

theorem tells_sums {closed : List (Item × List Bytes)} {told : List Group}
    (tells : List.Forall₂ Tells closed told) (whole : ∀ group ∈ told, NoneCut group.pieces) :
    ∀ entry ∈ closed, Sums entry := by
  induction tells with
  | nil => simp
  | cons first _ induction =>
      intro entry inside
      rcases List.mem_cons.mp inside with here | there
      · rw [here]
        exact (sums_iff first).mpr (whole _ List.mem_cons_self)
      · exact induction (fun group later => whole group (List.mem_cons_of_mem _ later)) entry there

theorem sums_whole {closed : List (Item × List Bytes)} {told : List Group}
    (tells : List.Forall₂ Tells closed told) (sums : ∀ entry ∈ closed, Sums entry) :
    ∀ group ∈ told, NoneCut group.pieces := by
  induction tells with
  | nil => simp
  | cons first _ induction =>
      intro group inside
      rcases List.mem_cons.mp inside with here | there
      · rw [here]
        exact (sums_iff first).mp (sums _ List.mem_cons_self)
      · exact induction (fun entry later => sums entry (List.mem_cons_of_mem _ later)) group there

theorem Here.quiet {accepts : Nat → Bool} {g : GenCtx} (here : Here accepts g) :
    Quiet accepts g.wire :=
  fun n below => here.taken n (Nat.lt_of_succ_lt below)

theorem lawful_responses (accepts : Nat → Bool) (events late : List Event) (ending : Ending) :
    (CallsWhole (events ++ late) →
        Lawful accepts .responses ending.finish
          (streamTurn accepts .responses events late ending)) ∧
      (Lawful accepts .responses ending.finish
          (streamTurn accepts .responses events late ending) →
        (streamTurn accepts .responses events late ending).dead = false →
          CallsWhole (events ++ late)) := by
  rcases turn_ends accepts .responses (fun _ _ => rfl) ending with lost | ⟨over_, -⟩
  · have lost' : RespLost accepts (turnGroups (events ++ late))
        (streamTurn accepts .responses events late ending) := lost
    obtain ⟨r, reads, told, before, tells⟩ := lost'.read
    constructor
    · intro whole
      refine ⟨lost'.gone.taken, r, reads, ?_, ?_⟩
      · intro stays
        rw [lost'.gone.dead] at stays
        cases stays
      · exact tells_sums tells fun group inside => group_whole whole (before.subset inside)
    · intro _ stays
      rw [lost'.gone.dead] at stays
      cases stays
  · have over' : RespOver accepts (turnGroups (events ++ late))
        (streamTurn accepts .responses events late ending) := over_
    obtain ⟨r, reads, ended, tells⟩ := over'.read
    constructor
    · intro whole
      exact ⟨over'.here.quiet, r, reads, fun _ => ended,
        tells_sums tells fun group inside => group_whole whole inside⟩
    · rintro ⟨-, r', reads', -, sums⟩ -
      rw [reads] at reads'
      cases reads'
      exact fun group inside _ => sums_whole tells sums group inside

theorem lawful_messages (accepts : Nat → Bool) (events late : List Event) (ending : Ending) :
    Lawful accepts .messages ending.finish (streamTurn accepts .messages events late ending) := by
  rcases turn_ends accepts .messages (fun _ _ => rfl) ending with lost | ⟨over_, -⟩
  · obtain ⟨written, lost'⟩ := lost
    obtain ⟨r, reads, -⟩ := lost'.read
    refine ⟨lost'.gone.taken, r, reads, ?_⟩
    intro stays
    rw [lost'.gone.dead] at stays
    cases stays
  · have over' : AnthOver accepts ending.finish
        (streamTurn accepts .messages events late ending) := over_
    obtain ⟨r, reads, ended⟩ := over'.read
    exact ⟨over'.here.quiet, r, reads, fun _ => ended⟩

/-- Every turn of the two surfaces is a lawful event stream, if on Responses no item
of a call cuts a character; and when the client stayed, only then. -/
theorem event_stream (accepts : Nat → Bool) {api : Surface}
    (typed : api = .responses ∨ api = .messages) (events late : List Event) (ending : Ending) :
    ((api = .responses → CallsWhole (events ++ late)) →
        Lawful accepts api ending.finish (streamTurn accepts api events late ending)) ∧
      (Lawful accepts api ending.finish (streamTurn accepts api events late ending) →
        (streamTurn accepts api events late ending).dead = false → api = .responses →
          CallsWhole (events ++ late)) := by
  cases typed with
  | inl responses =>
      subst responses
      have both := lawful_responses accepts events late ending
      exact ⟨fun whole => both.1 (whole rfl), fun lawful stays _ => both.2 lawful stays⟩
  | inr messages =>
      subst messages
      exact ⟨fun _ => lawful_messages accepts events late ending, fun _ _ other => nomatch other⟩

/-- A call whose arguments come in two pieces, cut between two characters. -/
def wholeCall : List Event :=
  [.text false [0x61], .callBegin [0x66], .callArgs [0x22], .callArgs [0xC3, 0xA9, 0x22], .callEnd]

theorem event_stream_surfaces :
    Lawful (fun n => n != 5) .messages .stop
        (streamTurn (fun n => n != 5) .messages [.text true [0x61], .text false [0x62]]
          [.text false [0x63]] ⟨.stop, none, false, false⟩) ∧
      Lawful (fun _ => true) .responses .toolCalls
        (streamTurn (fun _ => true) .responses wholeCall [] ⟨.toolCalls, none, false, false⟩) ∧
      CallsWhole wholeCall := by
  have whole : CallsWhole wholeCall := by
    intro group inside call
    have groups : turnGroups wholeCall =
        [⟨.message, [[0x61]]⟩, ⟨.functionCall, [[0x22], [0xC3, 0xA9, 0x22]]⟩] := by
      decide +kernel
    rw [groups] at inside
    rcases List.mem_cons.mp inside with rfl | later
    · cases call
    · rw [List.mem_singleton.mp later]
      apply (cleaned_pieces _).mp
      decide +kernel
  refine ⟨?_, ?_, whole⟩
  · exact (event_stream (fun n => n != 5) (Or.inr rfl) _ _ _).1 fun other => nomatch other
  · exact (event_stream (fun _ => true) (Or.inl rfl) wholeCall [] _).1 fun _ => whole

/-- The item of a call that was cut is closed with a text its deltas do not add up to. -/
theorem cut_call_unlawful :
    ¬Lawful (fun _ => true) .responses .toolCalls
      (streamTurn (fun _ => true) .responses cutCall [] ⟨.toolCalls, none, false, false⟩) := by
  rintro ⟨-, r, reads, -, sums⟩
  have closed : (Reader.read (streamTurn (fun _ => true) .responses cutCall []
      ⟨.toolCalls, none, false, false⟩).wire).map (fun r => r.closed.map fun entry =>
        (entry.1.text.bind decodeContent, (entry.2.mapM decodeContent).map List.flatten)) =
      some [(some [0x22, 0xC3, 0xA9, 0x22],
        some ([0x22] ++ replacement ++ replacement ++ [0x22]))] := by
    decide +kernel
  rw [reads, Option.map_some, Option.some.injEq] at closed
  obtain ⟨entry, entries, same⟩ : ∃ entry entries, r.closed = entry :: entries := by
    cases list : r.closed with
    | nil =>
        rw [list] at closed
        cases closed
    | cons entry entries => exact ⟨entry, entries, rfl⟩
  have sum := sums entry (by rw [same]; exact List.mem_cons_self)
  rw [same, List.map_cons, List.cons.injEq, Prod.mk.injEq] at closed
  rw [Sums, closed.1.1, closed.1.2] at sum
  revert sum
  decide

end GridcoreRunner.Stream
