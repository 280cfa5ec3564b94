import GridcoreRunner.Completion.StopFilter
import GridcoreRunner.Json.Escape

/-!
# The streamed turn

The sinks of a streamed request write one frame after another to the socket. A text
is on the wire as `sb_esc` wrote it. Two surfaces have typed events and keep at most
one item or block open; the others have chunks. A write that fails marks the client
as gone.
-/

namespace GridcoreRunner.Stream

set_option autoImplicit false

open GridcoreRunner.Json GridcoreRunner.Completion

/-- `API_*`. -/
inductive Surface
  | text | chat | responses | messages
deriving DecidableEq, Repr

/-- The kinds of an item (message, reasoning, function_call) and of a block
(text, thinking, tool_use). -/
inductive Kind
  | message | reasoning | functionCall
deriving DecidableEq, Repr

/-- `resp_shape_of`. -/
def respShapeOf (kind : Option Kind) : Kind := kind.getD .message

inductive Status
  | inProgress | completed | incomplete
deriving DecidableEq, Repr

/-- The reason in `incomplete_details`. -/
inductive Shortfall
  | envelopeUnmapped | maxOutputTokens
deriving DecidableEq, Repr

/-- How a turn ended. -/
inductive Finish
  | error | envelopeError | reasoningLimit | stop | length | toolCalls
deriving DecidableEq, Repr

inductive StopReason
  | toolUse | maxTokens | stopSequence | endTurn
deriving DecidableEq, Repr

/-- `<prefix>_<index>`; the prefix is the kind's. -/
structure ItemId where
  kind : Kind
  index : Nat
deriving DecidableEq, Repr

/-- A rendered output item. A call carries its number and its name. -/
structure Item where
  id : ItemId
  kind : Kind
  status : Status
  call : Option (Nat × Bytes)
  text : Option Bytes
deriving DecidableEq, Repr

/-- The part of the terminal response object that the turn decides. -/
structure RespDoc where
  status : Status
  incomplete : Option Shortfall
  output : List Item
  outputText : Bytes
deriving DecidableEq, Repr

inductive RespEvent
  | created
  | inProgress
  | itemAdded (index : Nat) (item : Item)
  | partAdded (kind : Kind) (id : ItemId) (index : Nat)
  | delta (kind : Kind) (id : ItemId) (index : Nat) (text : Bytes)
  | textDone (kind : Kind) (id : ItemId) (index : Nat) (text : Bytes)
  | partDone (kind : Kind) (id : ItemId) (index : Nat) (text : Bytes)
  | itemDone (index : Nat) (item : Item)
  | finished (doc : RespDoc)
deriving DecidableEq, Repr

inductive AnthEvent
  | messageStart
  | blockStart (index : Nat) (kind : Kind) (call : Option (Nat × Bytes))
  | blockDelta (index : Nat) (kind : Kind) (text : Bytes)
  | blockStop (index : Nat)
  | messageDelta (reason : StopReason) (stopSequence : Option Bytes)
  | messageStop
  | error (detail : Option Finish)
deriving DecidableEq, Repr

inductive Chunk
  | role
  | delta (role : Bool) (reasoning : Bool) (text : Bytes)
  | completion (text : Bytes)
  | callBegin (role : Bool) (index : Nat) (name : Bytes)
  | callArgs (index : Nat) (text : Bytes)
  | logprobs
  | finish (reason : Finish) (detail : Option Finish)
  | usage
  | done
deriving DecidableEq, Repr

inductive Frame
  | headers
  | typed (seq : Nat) (event : RespEvent)
  | plain (event : AnthEvent)
  | chunk (chunk : Chunk)
deriving DecidableEq, Repr

/-- The part of `gen_ctx` that a streamed turn writes from. -/
structure GenCtx where
  api : Surface
  dead : Bool
  roleSent : Bool
  toolIndex : Nat
  seq : Nat
  outputIndex : Nat
  itemOpen : Bool
  partOpen : Bool
  itemId : ItemId
  itemText : Bytes
  itemKind : Option Kind
  callName : Option Bytes
  outItems : List Item
  outText : Bytes
  closeStatus : Option Status
  pend : Bytes
  pendReason : Bytes
  /-- The frames handed to the socket. -/
  wire : List Frame
deriving DecidableEq, Repr

def GenCtx.init (api : Surface) : GenCtx :=
  { api, dead := false, roleSent := false, toolIndex := 0, seq := 0, outputIndex := 0,
    itemOpen := false, partOpen := false, itemId := ⟨.message, 0⟩, itemText := [],
    itemKind := none, callName := none, outItems := [], outText := [], closeStatus := none,
    pend := [], pendReason := [], wire := [] }

/-- What a call leaves: the context, and whether it returned non-zero. -/
structure Answer where
  g : GenCtx
  rc : Bool
deriving DecidableEq, Repr

/-- `if (..) return 1;` in front of the rest. -/
def Answer.next (answer : Answer) (rest : GenCtx → Answer) : Answer :=
  if answer.rc then answer else rest answer.g

@[simp] theorem next_zero (g : GenCtx) (rest : GenCtx → Answer) :
    (Answer.mk g false).next rest = rest g := rfl

@[simp] theorem next_one (g : GenCtx) (rest : GenCtx → Answer) :
    (Answer.mk g true).next rest = ⟨g, true⟩ := rfl

section Writing

-- Whether the socket takes a write, by its number.
variable (accepts : Nat → Bool)

def sendFrame (frame : Frame) (g : GenCtx) : Answer :=
  let dead := g.dead || !accepts g.wire.length
  ⟨{ g with wire := g.wire ++ [frame], dead }, dead⟩

def chunkSend (chunk : Chunk) (g : GenCtx) : Answer := sendFrame accepts (.chunk chunk) g

/-- `resp_send`: `sse_send` with a sequence number. -/
def respSend (event : RespEvent) (g : GenCtx) : Answer :=
  sendFrame accepts (.typed g.seq event) { g with seq := g.seq + 1 }

/-- `anth_send`: `sse_send` without one. -/
def anthSend (event : AnthEvent) (g : GenCtx) : Answer := sendFrame accepts (.plain event) g

/-! ## Responses -/

/-- `resp_item_json` -/
def respItemJson (g : GenCtx) (status : Status) (filled : Bool) : Item :=
  let kind := respShapeOf g.itemKind
  if kind = .functionCall then
    { id := g.itemId, kind, status, call := some (g.toolIndex, sbEsc (g.callName.getD [])),
      text := some (if filled then sbEsc g.itemText else []) }
  else
    { id := g.itemId, kind, status, call := none,
      text := if filled then some (sbEsc g.itemText) else none }

/-- The part that ends with its item. -/
def closePart (g : GenCtx) : Answer :=
  let kind := respShapeOf g.itemKind
  if g.partOpen then
    (respSend accepts (.textDone kind g.itemId g.outputIndex (sbEsc g.itemText)) g).next fun g =>
      (if kind = .functionCall then Answer.mk g false
        else respSend accepts (.partDone kind g.itemId g.outputIndex (sbEsc g.itemText)) g).next
          fun g => ⟨{ g with partOpen := false }, false⟩
  else ⟨g, false⟩

def respCloseItem (g : GenCtx) : Answer :=
  if !g.itemOpen || g.dead then ⟨g, g.dead⟩
  else
    (closePart accepts g).next fun g =>
      let item := respItemJson g (g.closeStatus.getD .completed) true
      let g := { g with outItems := g.outItems ++ [item],
                        outText := if respShapeOf g.itemKind = .message
                          then g.outText ++ g.itemText else g.outText }
      let answer := respSend accepts (.itemDone g.outputIndex item) g
      ⟨{ answer.g with itemOpen := false, outputIndex := answer.g.outputIndex + 1,
                       itemText := [] }, answer.rc⟩

def respOpenItem (kind : Kind) (g : GenCtx) : Answer :=
  if g.itemOpen && g.itemKind == some kind then ⟨g, false⟩
  else
    (respCloseItem accepts g).next fun g =>
      let g := { g with itemKind := some kind, itemId := ⟨kind, g.outputIndex⟩ }
      (respSend accepts (.itemAdded g.outputIndex (respItemJson g .inProgress false)) g).next
        fun g =>
          let g := { g with itemOpen := true }
          if kind = .functionCall then ⟨{ g with partOpen := true }, false⟩
          else
            (respSend accepts (.partAdded kind g.itemId g.outputIndex) g).next fun g =>
              ⟨{ g with partOpen := true }, false⟩

def respDelta (kind : Kind) (bytes : Bytes) (g : GenCtx) : Answer :=
  if g.dead then ⟨g, true⟩
  else
    (respOpenItem accepts kind g).next fun g =>
      let g := { g with itemText := g.itemText ++ bytes }
      respSend accepts (.delta kind g.itemId g.outputIndex (sbEsc bytes)) g

/-! ## Messages -/

def anthCloseBlock (g : GenCtx) : Answer :=
  if !g.itemOpen || g.dead then ⟨g, g.dead⟩
  else
    let answer := anthSend accepts (.blockStop g.outputIndex) g
    ⟨{ answer.g with itemOpen := false, outputIndex := answer.g.outputIndex + 1,
                     itemText := [] }, answer.rc⟩

def anthOpenBlock (kind : Kind) (g : GenCtx) : Answer :=
  if g.itemOpen && g.itemKind == some kind then ⟨g, false⟩
  else
    (anthCloseBlock accepts g).next fun g =>
      let g := { g with itemKind := some kind }
      let call := if kind = .functionCall then some (g.toolIndex, sbEsc (g.callName.getD []))
        else none
      (anthSend accepts (.blockStart g.outputIndex kind call) g).next fun g =>
        ⟨{ g with itemOpen := true }, false⟩

def anthDelta (kind : Kind) (bytes : Bytes) (g : GenCtx) : Answer :=
  if g.dead then ⟨g, true⟩
  else
    (anthOpenBlock accepts kind g).next fun g =>
      let g := { g with itemText := g.itemText ++ bytes }
      anthSend accepts (.blockDelta g.outputIndex kind (sbEsc bytes)) g

/-! ## Text -/

/-- The kind of a text channel. -/
def channelKind (reasoning : Bool) : Kind := if reasoning then .reasoning else .message

def sendTextDeltaRaw (reasoning : Bool) (bytes : Bytes) (g : GenCtx) : Answer :=
  if g.dead then ⟨g, true⟩
  else
    match g.api with
    | .responses => respDelta accepts (channelKind reasoning) bytes g
    | .messages => anthDelta accepts (channelKind reasoning) bytes g
    | .chat =>
        chunkSend accepts (.delta (!g.roleSent) reasoning (sbEsc bytes)) { g with roleSent := true }
    | .text => chunkSend accepts (.completion (sbEsc bytes)) g

end Writing

/-- What is held back on a channel. -/
def GenCtx.held (g : GenCtx) (reasoning : Bool) : Bytes := if reasoning then g.pendReason else g.pend

def GenCtx.hold (g : GenCtx) (reasoning : Bool) (bytes : Bytes) : GenCtx :=
  if reasoning then { g with pendReason := bytes } else { g with pend := bytes }

/-- The piece that goes out now, and the unfinished character that waits. -/
def splice (held bytes : Bytes) : Option Bytes × Bytes :=
  if held.isEmpty && u8IncompleteTail bytes == 0 then (some bytes, [])
  else
    let joined := held ++ bytes
    let emit := joined.length - u8IncompleteTail joined
    (if emit > 0 then some (joined.take emit) else none, joined.drop emit)

section Sinks

variable (accepts : Nat → Bool)

def sendTextDelta (reasoning : Bool) (bytes : Bytes) (g : GenCtx) : Answer :=
  if g.dead then ⟨g, true⟩
  else
    let spliced := splice (g.held reasoning) bytes
    let g := g.hold reasoning spliced.2
    match spliced.1 with
    | some piece => sendTextDeltaRaw accepts reasoning piece g
    | none => ⟨g, false⟩

def flushTextDelta (reasoning : Bool) (g : GenCtx) : Answer :=
  let held := g.held reasoning
  if held.isEmpty then ⟨g, false⟩
  else sendTextDeltaRaw accepts reasoning held (g.hold reasoning [])

def sinkCallBegin (name : Bytes) (g : GenCtx) : Answer :=
  if g.dead then ⟨g, true⟩
  else
    match g.api with
    | .responses => respOpenItem accepts .functionCall { g with callName := some name }
    | .messages => anthOpenBlock accepts .functionCall { g with callName := some name }
    | _ =>
        chunkSend accepts (.callBegin (!g.roleSent) g.toolIndex (sbEsc name))
          { g with roleSent := true }

def sinkCallArgs (bytes : Bytes) (g : GenCtx) : Answer :=
  if g.dead then ⟨g, true⟩
  else
    match g.api with
    | .responses => respDelta accepts .functionCall bytes g
    | .messages => anthDelta accepts .functionCall bytes g
    | _ => chunkSend accepts (.callArgs g.toolIndex (sbEsc bytes)) g

def sinkCallEnd (g : GenCtx) : Answer :=
  let answer := match g.api with
    | .responses => respCloseItem accepts g
    | .messages => anthCloseBlock accepts g
    | _ => ⟨g, false⟩
  if answer.rc then answer
  else ⟨{ answer.g with toolIndex := answer.g.toolIndex + 1 }, false⟩

/-- What the splitter and the demultiplexer hand over, and the poll of the socket
that finds the client gone. -/
inductive Event
  | text (reasoning : Bool) (bytes : Bytes)
  | callBegin (name : Bytes)
  | callArgs (bytes : Bytes)
  | callEnd
  | hangup
deriving DecidableEq, Repr

def sink (event : Event) (g : GenCtx) : Answer :=
  match event with
  | .text reasoning bytes => sendTextDelta accepts reasoning bytes g
  | .callBegin name => sinkCallBegin accepts name g
  | .callArgs bytes => sinkCallArgs accepts bytes g
  | .callEnd => sinkCallEnd accepts g
  | .hangup => ⟨{ g with dead := true }, true⟩

def feed (events : List Event) (g : GenCtx) : GenCtx :=
  events.foldl (fun g event => (sink accepts event g).g) g

/-! ## The turn -/

/-- What stands in front of the first token. -/
def opening (g : GenCtx) : Answer :=
  match g.api with
  | .chat => chunkSend accepts .role { g with roleSent := true }
  | .responses => (respSend accepts .created g).next (respSend accepts .inProgress)
  | .messages => anthSend accepts .messageStart g
  | .text => ⟨g, false⟩

def generationFaulted (finish : Finish) : Bool := finish == .error || finish == .envelopeError

def anthStopReason (finish : Finish) (stopHit : Bool) : StopReason :=
  match finish with
  | .toolCalls => .toolUse
  | .length | .reasoningLimit => .maxTokens
  | _ => if stopHit then .stopSequence else .endTurn

def openaiFinish : Finish → Finish
  | .reasoningLimit => .length
  | .envelopeError => .error
  | finish => finish

def finishDetailOf : Finish → Option Finish
  | .reasoningLimit => some .reasoningLimit
  | .envelopeError => some .envelopeError
  | _ => none

/-- The status of a Responses turn and its reason, from the two verdicts. -/
def respStatus (cut failed : Bool) : Status × Option Shortfall :=
  (if cut || failed then .incomplete else .completed,
    if failed then some .envelopeUnmapped else if cut then some .maxOutputTokens else none)

def respTerminal (finish : Finish) (g : GenCtx) : GenCtx :=
  let cut := finish == .length || finish == .reasoningLimit
  let failed := finish == .envelopeError
  let g := if (cut || failed) && respShapeOf g.itemKind == .message
    then { g with closeStatus := some .incomplete } else g
  let g := (respCloseItem accepts g).g
  if g.dead then g
  else
    let status := respStatus cut failed
    let doc : RespDoc := { status := status.1, incomplete := status.2, output := g.outItems,
                           outputText := sbEsc g.outText }
    (respSend accepts (.finished doc) g).g

def anthTerminal (finish : Finish) (stopHit : Option Bytes) (g : GenCtx) : GenCtx :=
  if generationFaulted finish then
    if g.dead then g else (anthSend accepts (.error (finishDetailOf finish)) g).g
  else
    let g := if !g.itemOpen && g.outputIndex == 0 then (anthOpenBlock accepts .message g).g else g
    let g := (anthCloseBlock accepts g).g
    if g.dead then g
    else
      ((anthSend accepts (.messageDelta (anthStopReason finish stopHit.isSome)
        (stopHit.map sbEsc)) g).next (anthSend accepts .messageStop)).g

def chunkTerminal (finish : Finish) (logprobs usage : Bool) (g : GenCtx) : GenCtx :=
  if g.dead then g
  else
    -- nothing asks whether this chunk went out
    let g := if logprobs then (chunkSend accepts .logprobs g).g else g
    ((chunkSend accepts (.finish (openaiFinish finish) (finishDetailOf finish)) g).next fun g =>
      (if usage then chunkSend accepts .usage g else Answer.mk g false).next
        (chunkSend accepts .done)).g

/-- How a turn ends: the reason, the stop string that was hit, whether tokens were scored,
and whether the client asked for its usage. -/
structure Ending where
  finish : Finish
  stopHit : Option Bytes
  logprobs : Bool
  usage : Bool
deriving DecidableEq, Repr

def terminal (ending : Ending) (g : GenCtx) : GenCtx :=
  match g.api with
  | .responses => respTerminal accepts ending.finish g
  | .messages => anthTerminal accepts ending.finish ending.stopHit g
  | _ => chunkTerminal accepts ending.finish ending.logprobs ending.usage g

/-- Both channels, content first. -/
def flushBoth (g : GenCtx) : GenCtx :=
  (flushTextDelta accepts true (flushTextDelta accepts false g).g).g

/-- A streamed turn: what generation hands over, then what the filters still held. -/
def streamTurn (api : Surface) (events late : List Event) (ending : Ending) : GenCtx :=
  let connected := sendFrame accepts .headers (GenCtx.init api)
  if connected.rc then connected.g
  else
    let g := feed accepts events (opening accepts connected.g).g
    if g.dead then g
    else terminal accepts ending (flushBoth accepts (feed accepts late g))

end Sinks

end GridcoreRunner.Stream
