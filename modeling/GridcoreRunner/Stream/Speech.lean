import GridcoreRunner.Stream.Hold

/-!
# What a turn says

The sink events behind the holds, and how they fall into groups: an item or a block
takes the pieces of one kind until another kind speaks or a call ends. This is what
the emitters are for, without their flags.
-/

namespace GridcoreRunner.Stream

set_option autoImplicit false

open GridcoreRunner.Json GridcoreRunner.Completion

/-! ## Behind the holds -/

/-- What passes the holds. -/
inductive Said
  | text (reasoning : Bool) (piece : Bytes)
  | callBegin (name : Bytes)
  | callArgs (piece : Bytes)
  | callEnd
deriving DecidableEq, Repr

/-- The two unfinished characters. -/
structure Held where
  content : Bytes
  reasoning : Bytes
deriving DecidableEq, Repr

def Held.on (held : Held) (reasoning : Bool) : Bytes :=
  if reasoning then held.reasoning else held.content

def Held.set (held : Held) (reasoning : Bool) (bytes : Bytes) : Held :=
  if reasoning then { held with reasoning := bytes } else { held with content := bytes }

/-- What one event lets through. -/
def hear (held : Held) : Event → List Said × Held
  | .text reasoning bytes =>
      let spliced := splice (held.on reasoning) bytes
      ((spliced.1.map (Said.text reasoning)).toList, held.set reasoning spliced.2)
  | .callBegin name => ([.callBegin name], held)
  | .callArgs bytes => ([.callArgs bytes], held)
  | .callEnd => ([.callEnd], held)
  | .hangup => ([], held)

def hearAll : Held → List Event → List Said × Held
  | held, [] => ([], held)
  | held, event :: events =>
      let here := hear held event
      let later := hearAll here.2 events
      (here.1 ++ later.1, later.2)

/-- What the flush lets go on one channel. -/
def rest (reasoning : Bool) (bytes : Bytes) : List Said :=
  if bytes.isEmpty then [] else [.text reasoning bytes]

/-- All that a turn says. -/
def saidOf (events : List Event) : List Said :=
  let heard := hearAll ⟨[], []⟩ events
  heard.1 ++ (rest false heard.2.content ++ rest true heard.2.reasoning)

theorem hear_all_append (held : Held) (events more : List Event) :
    hearAll held (events ++ more) =
      ((hearAll held events).1 ++ (hearAll (hearAll held events).2 more).1,
        (hearAll (hearAll held events).2 more).2) := by
  induction events generalizing held with
  | nil => rfl
  | cons event events induction => simp only [List.cons_append, hearAll, induction, List.append_assoc]

/-! ## The bytes of a channel -/

/-- The piece of a channel; a channel is named by the kind of its items. -/
def Said.piece (kind : Kind) : Said → Option Bytes
  | .text reasoning piece => if channelKind reasoning = kind then some piece else none
  | .callArgs piece => if kind = .functionCall then some piece else none
  | _ => none

def pieces (kind : Kind) (said : List Said) : List Bytes := said.filterMap (Said.piece kind)

/-- The bytes of a channel that an event hands over. -/
def Event.bytes (kind : Kind) : Event → Option Bytes
  | .text reasoning bytes => if channelKind reasoning = kind then some bytes else none
  | .callArgs bytes => if kind = .functionCall then some bytes else none
  | _ => none

def handed (kind : Kind) (events : List Event) : List Bytes :=
  events.filterMap (Event.bytes kind)

theorem pieces_append (kind : Kind) (said more : List Said) :
    pieces kind (said ++ more) = pieces kind said ++ pieces kind more := by
  rw [pieces, List.filterMap_append]
  rfl

@[simp] theorem pieces_nil (kind : Kind) : pieces kind [] = [] := rfl

/-- Arguments are never held back. -/
theorem hear_arguments (held : Held) (events : List Event) :
    pieces .functionCall (hearAll held events).1 = handed .functionCall events := by
  induction events generalizing held with
  | nil => rfl
  | cons event events induction =>
      rw [hearAll, pieces_append, induction, handed, handed, List.filterMap_cons]
      cases event with
      | text reasoning bytes =>
          have other : channelKind reasoning ≠ .functionCall := by cases reasoning <;> decide
          simp only [hear, Event.bytes, if_neg other]
          cases (splice (held.on reasoning) bytes).1 with
          | none => rfl
          | some piece => simp [pieces, Said.piece, other]
      | callBegin name => rfl
      | callArgs bytes => rfl
      | callEnd => rfl
      | hangup => rfl

theorem channel_kind_inj {one other : Bool} (same : channelKind one = channelKind other) :
    one = other := by
  cases one <;> cases other <;> first | rfl | cases same

@[simp] theorem held_on_set (held : Held) (reasoning : Bool) (bytes : Bytes) :
    (held.set reasoning bytes).on reasoning = bytes := by
  cases reasoning <;> rfl

theorem held_on_set_other (held : Held) {reasoning other : Bool} (differs : reasoning ≠ other)
    (bytes : Bytes) : (held.set reasoning bytes).on other = held.on other := by
  cases reasoning <;> cases other <;> first | rfl | exact absurd rfl differs

/-- One event on a text channel. -/
theorem hear_step {reasoning : Bool} {held : Held} {before : List Bytes}
    (settled : Settled before (held.on reasoning)) (event : Event) :
    Settled (before ++ pieces (channelKind reasoning) (hear held event).1)
        ((hear held event).2.on reasoning) ∧
      (pieces (channelKind reasoning) (hear held event).1).flatten ++
          (hear held event).2.on reasoning =
        held.on reasoning ++ (event.bytes (channelKind reasoning)).getD [] := by
  have quiet : pieces (channelKind reasoning) (hear held event).1 = [] →
      (hear held event).2.on reasoning = held.on reasoning →
      event.bytes (channelKind reasoning) = none →
      Settled (before ++ pieces (channelKind reasoning) (hear held event).1)
          ((hear held event).2.on reasoning) ∧
        (pieces (channelKind reasoning) (hear held event).1).flatten ++
            (hear held event).2.on reasoning =
          held.on reasoning ++ (event.bytes (channelKind reasoning)).getD [] := by
    intro none_ same unnamed
    rw [none_, same, unnamed, List.append_nil]
    exact ⟨settled, by simp⟩
  cases event with
  | text other bytes =>
      by_cases here : other = reasoning
      · subst here
        have step := splice_settled settled bytes
        have out : pieces (channelKind other) (hear held (.text other bytes)).1 =
            (splice (held.on other) bytes).1.toList := by
          simp only [hear]
          cases (splice (held.on other) bytes).1 with
          | none => rfl
          | some piece => simp [pieces, Said.piece]
        have kept : (hear held (.text other bytes)).2.on other = (splice (held.on other) bytes).2 :=
          held_on_set held other _
        have flat : (splice (held.on other) bytes).1.toList.flatten =
            (splice (held.on other) bytes).1.getD [] := by
          cases (splice (held.on other) bytes).1 with
          | none => rfl
          | some piece => simp
        rw [out, kept, flat]
        simp only [Event.bytes, if_pos, Option.getD_some]
        exact step
      · have differs : channelKind other ≠ channelKind reasoning :=
          fun same => here (channel_kind_inj same)
        apply quiet
        · simp only [hear]
          cases (splice (held.on other) bytes).1 with
          | none => rfl
          | some piece => simp [pieces, Said.piece, differs]
        · exact held_on_set_other held here _
        · simp [Event.bytes, differs]
  | callBegin name => exact quiet rfl rfl rfl
  | callArgs bytes => cases reasoning <;> exact quiet rfl rfl rfl
  | callEnd => exact quiet rfl rfl rfl
  | hangup => exact quiet rfl rfl rfl

/-- What came in on a text channel went out whole or is still held. -/
theorem hear_all_text {reasoning : Bool} {held : Held} {before : List Bytes}
    (settled : Settled before (held.on reasoning)) (events : List Event) :
    Settled (before ++ pieces (channelKind reasoning) (hearAll held events).1)
        ((hearAll held events).2.on reasoning) ∧
      (pieces (channelKind reasoning) (hearAll held events).1).flatten ++
          (hearAll held events).2.on reasoning =
        held.on reasoning ++ (handed (channelKind reasoning) events).flatten := by
  induction events generalizing held before with
  | nil =>
      simp only [hearAll, pieces_nil, List.append_nil, List.flatten_nil, List.nil_append, handed,
        List.filterMap_nil, and_true]
      exact settled
  | cons event events induction =>
      have step := hear_step settled event
      have later := induction step.1
      have split : (handed (channelKind reasoning) (event :: events)).flatten =
          (event.bytes (channelKind reasoning)).getD [] ++
            (handed (channelKind reasoning) events).flatten := by
        rw [handed, handed, List.filterMap_cons]
        cases event.bytes (channelKind reasoning) with
        | none => rfl
        | some bytes => rfl
      rw [hearAll, pieces_append]
      constructor
      · rw [← List.append_assoc]
        exact later.1
      · rw [List.flatten_append, List.append_assoc, later.2, ← List.append_assoc, step.2, split,
          List.append_assoc]

theorem pieces_rest (kind : Kind) (reasoning : Bool) (bytes : Bytes) :
    pieces kind (rest reasoning bytes) =
      if bytes.isEmpty then [] else if channelKind reasoning = kind then [bytes] else [] := by
  rw [rest]
  split_ifs with empty same
  · rfl
  · simp [pieces, Said.piece, same]
  · simp [pieces, Said.piece, same]

theorem rest_flatten (bytes : Bytes) : (if bytes.isEmpty then [] else [bytes]).flatten = bytes := by
  cases bytes <;> simp

/-- After the flush no byte of a text channel is missing and no character was cut. -/
theorem said_text (reasoning : Bool) (events : List Event) :
    NoneCut (pieces (channelKind reasoning) (saidOf events)) ∧
      (pieces (channelKind reasoning) (saidOf events)).flatten =
        (handed (channelKind reasoning) events).flatten := by
  have start : Settled [] ((⟨[], []⟩ : Held).on reasoning) := by
    cases reasoning <;> exact settled_nil
  have heard := hear_all_text start events
  have empty : (⟨[], []⟩ : Held).on reasoning = [] := by cases reasoning <;> rfl
  rw [empty, List.nil_append] at heard
  rw [List.nil_append] at heard
  have last : pieces (channelKind reasoning) (saidOf events) =
      pieces (channelKind reasoning) (hearAll ⟨[], []⟩ events).1 ++
        (if ((hearAll ⟨[], []⟩ events).2.on reasoning).isEmpty then []
          else [(hearAll ⟨[], []⟩ events).2.on reasoning]) := by
    rw [saidOf, pieces_append, pieces_append, pieces_rest, pieces_rest]
    cases reasoning <;> simp [channelKind, Held.on]
  rw [last]
  constructor
  · by_cases none_ : ((hearAll ⟨[], []⟩ events).2.on reasoning).isEmpty
    · rw [if_pos none_, List.append_nil]
      exact heard.1.1
    · rw [if_neg none_]
      apply none_cut_concat heard.1.1
      have tail := heard.1.2 []
      rw [List.append_nil] at tail
      exact tail
  · rw [List.flatten_append, rest_flatten]
    exact heard.2

theorem said_arguments (events : List Event) :
    pieces .functionCall (saidOf events) = handed .functionCall events := by
  rw [saidOf, pieces_append, pieces_append, pieces_rest, pieces_rest, hear_arguments]
  simp [channelKind]

end GridcoreRunner.Stream
