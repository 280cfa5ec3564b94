import GridcoreRunner.Stream.Turn

/-!
# What a client reads from the deltas

Content and reasoning read as if they had been escaped in one piece, whatever the
pieces were. Tool-call arguments pass no hold: they do so exactly when no piece ends
inside a character.
-/

namespace GridcoreRunner.Stream

set_option autoImplicit false

open GridcoreRunner.Json

/-- The escaped texts of a channel's deltas. -/
def emitted (kind : Kind) (wire : List Frame) : List Bytes :=
  (texts wire).filterMap fun entry => if entry.1 = kind then some entry.2 else none

/-- The deltas of a channel, each read as a JSON string. -/
def decodedDeltas (kind : Kind) (wire : List Frame) : Option Bytes :=
  ((emitted kind wire).mapM decodeContent).map List.flatten

theorem told_piece (kind : Kind) (said : List Said) :
    (said.filterMap Said.told).filterMap
        (fun entry => if entry.1 = kind then some entry.2 else none) =
      (pieces kind said).map sbEsc := by
  induction said with
  | nil => rfl
  | cons one said induction =>
      have split : pieces kind (one :: said) = (one.piece kind).toList ++ pieces kind said := by
        rw [← List.singleton_append, pieces_append]
        rfl
      rw [split, List.map_append, ← induction]
      cases one with
      | text reasoning piece =>
          by_cases same : channelKind reasoning = kind
          · simp [Said.told, Said.piece, same]
          · simp [Said.told, Said.piece, same]
      | callBegin name => rfl
      | callArgs piece =>
          cases kind
          · simp [Said.told, Said.piece]
          · simp [Said.told, Said.piece]
          · simp [Said.told, Said.piece]
      | callEnd => rfl

theorem decode_pieces (pieces : List Bytes) :
    (pieces.map sbEsc).mapM decodeContent = some (pieces.map cleaned) := by
  induction pieces with
  | nil => rfl
  | cons piece pieces induction =>
      rw [List.map_cons, List.mapM_cons, decode_sb_esc, induction]
      rfl

theorem LostTurn.dead {accepts : Nat → Bool} {api : Surface} {groups : List Group} {g : GenCtx}
    (lost : LostTurn accepts api groups g) : g.dead = true := by
  cases api with
  | responses => exact (RespLost.gone lost).dead
  | messages =>
      obtain ⟨written, here⟩ := lost
      exact here.gone.dead
  | text => exact lost
  | chat => exact lost

/-- The pieces a channel lets out: what was handed to it, cut nowhere unless it
carries arguments. -/
theorem said_pieces (kind : Kind) (events : List Event) :
    (pieces kind (saidOf events)).flatten = (handed kind events).flatten ∧
      (NoneCut (pieces kind (saidOf events)) ↔
        (kind = .functionCall → NoneCut (handed .functionCall events))) := by
  cases kind with
  | message =>
      have said := said_text false events
      exact ⟨said.2, fun _ call => (nomatch call), fun _ => said.1⟩
  | reasoning =>
      have said := said_text true events
      exact ⟨said.2, fun _ call => (nomatch call), fun _ => said.1⟩
  | functionCall =>
      rw [said_arguments]
      exact ⟨rfl, fun none_ _ => none_, fun none_ => none_ rfl⟩

/-- The deltas of a channel read as the whole channel exactly when it is a text
channel or no argument piece cuts a character. -/
theorem deltas_decode (accepts : Nat → Bool) (api : Surface) (events late : List Event)
    (ending : Ending) (kind : Kind)
    (offered : ∀ event ∈ events ++ late, Offers api event = true)
    (stays : (streamTurn accepts api events late ending).dead = false) :
    decodedDeltas kind (streamTurn accepts api events late ending).wire =
        decodeContent (sbEsc (handed kind (events ++ late)).flatten) ↔
      (kind = .functionCall → NoneCut (handed .functionCall (events ++ late))) := by
  have said := said_pieces kind (events ++ late)
  rcases turn_ends accepts api offered ending with lost | ⟨-, spoken⟩
  · rw [lost.dead] at stays
    cases stays
  · rw [decodedDeltas, emitted, spoken, told_piece, decode_pieces, decode_sb_esc, ← said.2,
      ← said.1, ← cleaned_pieces, Option.map_some, Option.some.injEq]
    rfl

theorem deltas_decode_content :
    decodedDeltas .message (streamTurn (fun _ => true) .chat
        [.text false [0xC3], .text true [0x61], .text false [0xA9]] []
        ⟨.stop, none, true, false⟩).wire =
      decodeContent (sbEsc [0xC3, 0xA9]) :=
  (deltas_decode (fun _ => true) .chat
    [.text false [0xC3], .text true [0x61], .text false [0xA9]] [] ⟨.stop, none, true, false⟩
    .message (by decide) (by decide +kernel)).mpr (fun call => nomatch call)

/-- A call whose arguments come in two pieces, the first of which ends inside a
character. -/
def cutCall : List Event := [.callBegin [0x66], .callArgs [0x22, 0xC3], .callArgs [0xA9, 0x22]]

/-- The two bytes of the character are replaced one by one. -/
theorem arguments_replaced :
    decodedDeltas .functionCall
        (streamTurn (fun _ => true) .chat cutCall [] ⟨.toolCalls, none, false, false⟩).wire =
      some ([0x22] ++ replacement ++ replacement ++ [0x22]) ∧
    decodedDeltas .functionCall
        (streamTurn (fun _ => true) .chat cutCall [] ⟨.toolCalls, none, false, false⟩).wire ≠
      decodeContent (sbEsc (handed .functionCall cutCall).flatten) := by
  decide +kernel

end GridcoreRunner.Stream
