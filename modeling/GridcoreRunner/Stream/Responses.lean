import GridcoreRunner.Stream.Wire

/-!
# The Responses stream and its reader

The reader is a client that takes the events one by one and refuses the first that
does not fit: a gap in the sequence numbers, an item opened over another, an index
out of order, a delta outside its item, a terminal event whose output is not the list
of the closed items.
-/

namespace GridcoreRunner.Stream

set_option autoImplicit false

open GridcoreRunner.Json

/-! ## The reader -/

inductive Stage
  | fresh | connected | created | running | ended | over | failed
deriving DecidableEq, Repr

/-- The item that is being read. -/
structure Reading where
  kind : Kind
  parted : Bool
  deltas : List Bytes
  done : Option Bytes
  sealed_ : Bool
deriving DecidableEq, Repr

structure Reader where
  stage : Stage
  seq : Nat
  item : Option Reading
  /-- The closed items with the deltas they came in. -/
  closed : List (Item × List Bytes)
deriving DecidableEq, Repr

def Reader.fresh : Reader := { stage := .fresh, seq := 0, item := none, closed := [] }

/-- The open item, where an event names it. -/
def Reader.named (r : Reader) (kind : Kind) (id : ItemId) (index : Nat) : Option Reading :=
  if r.stage = .running ∧ index = r.closed.length ∧ id = ⟨kind, index⟩ then
    r.item.filter fun reading => reading.kind = kind
  else none

def Reader.event (r : Reader) : RespEvent → Option Reader
  | .created => if r.stage = .connected then some { r with stage := .created } else none
  | .inProgress => if r.stage = .created then some { r with stage := .running } else none
  | .itemAdded index item =>
      if r.stage = .running ∧ r.item = none ∧ index = r.closed.length ∧
          item.id = ⟨item.kind, index⟩ ∧ item.status = .inProgress then
        some { r with item := some { kind := item.kind, parted := false, deltas := [],
                                     done := none, sealed_ := false } }
      else none
  | .partAdded kind id index =>
      (r.named kind id index).bind fun reading =>
        if kind ≠ .functionCall ∧ reading.parted = false then
          some { r with item := some { reading with parted := true } }
        else none
  | .delta kind id index text =>
      (r.named kind id index).bind fun reading =>
        if (kind = .functionCall ∨ reading.parted = true) ∧ reading.done = none then
          some { r with item := some { reading with deltas := reading.deltas ++ [text] } }
        else none
  | .textDone kind id index text =>
      (r.named kind id index).bind fun reading =>
        if (kind = .functionCall ∨ reading.parted = true) ∧ reading.done = none then
          some { r with item := some { reading with done := some text } }
        else none
  | .partDone kind id index text =>
      (r.named kind id index).bind fun reading =>
        if kind ≠ .functionCall ∧ reading.done = some text ∧ reading.sealed_ = false then
          some { r with item := some { reading with sealed_ := true } }
        else none
  | .itemDone index item =>
      (r.named item.kind item.id index).bind fun reading =>
        if reading.done ≠ none ∧ item.text = reading.done ∧ item.status ≠ .inProgress ∧
            (item.kind = .functionCall ∨ reading.sealed_ = true) then
          some { r with item := none, closed := r.closed ++ [(item, reading.deltas)] }
        else none
  | .finished doc =>
      if r.stage = .running ∧ r.item = none ∧ doc.output = r.closed.map Prod.fst then
        some { r with stage := .over }
      else none

def Reader.take (r : Reader) : Frame → Option Reader
  | .headers => if r.stage = .fresh then some { r with stage := .connected } else none
  | .typed seq event => if seq = r.seq then ({ r with seq := seq + 1 } : Reader).event event else none
  | _ => none

def Reader.read (wire : List Frame) : Option Reader := wire.foldlM Reader.take Reader.fresh

theorem read_concat (wire : List Frame) (frame : Frame) :
    Reader.read (wire ++ [frame]) = (Reader.read wire).bind fun r => r.take frame := by
  rw [Reader.read, List.foldlM_append]
  simp [Reader.read]

theorem read_typed {wire : List Frame} {r : Reader} (reads : Reader.read wire = some r)
    (event : RespEvent) :
    Reader.read (wire ++ [.typed r.seq event]) = ({ r with seq := r.seq + 1 } : Reader).event event := by
  rw [read_concat, reads, Option.bind_some, Reader.take, if_pos rfl]

/-! ## What the reader knows of the groups -/

/-- A closed item and its group. -/
def Tells (entry : Item × List Bytes) (group : Group) : Prop :=
  entry.1.kind = group.kind ∧ entry.1.text = some (sbEsc group.pieces.flatten) ∧
    entry.2 = group.pieces.map sbEsc

/-- The client was lost while the groups were being written. -/
structure RespLost (accepts : Nat → Bool) (groups : List Group) (g : GenCtx) : Prop where
  gone : Gone accepts g
  read : ∃ r, Reader.read g.wire = some r ∧
    ∃ told, told <+: groups ∧ List.Forall₂ Tells r.closed told

/-- The item of the current group, as the reader has it. -/
def readingOf (group : Group) : Reading :=
  { kind := group.kind, parted := group.kind ≠ .functionCall, deltas := group.pieces.map sbEsc,
    done := none, sealed_ := false }

/-- What the emitter keeps of the current group. -/
def Emits (g : GenCtx) : Option Group → Prop
  | none => g.itemOpen = false ∧ g.itemText = []
  | some group =>
      g.itemOpen = true ∧ g.partOpen = true ∧ g.itemKind = some group.kind ∧
        g.itemId = ⟨group.kind, g.outputIndex⟩ ∧ g.itemText = group.pieces.flatten

/-- The reader inside the turn. -/
def readerAt (seq : Nat) (item : Option Reading) (closed : List (Item × List Bytes)) : Reader :=
  { stage := .running, seq, item, closed }

structure RespShape (accepts : Nat → Bool) (groups : Groups) (g : GenCtx) : Prop where
  here : Here accepts g
  read : ∃ closed, Reader.read g.wire = some (readerAt g.seq (groups.current.map readingOf) closed) ∧
    closed.map Prod.fst = g.outItems ∧ closed.length = g.outputIndex ∧
    List.Forall₂ Tells closed groups.closed
  emits : Emits g groups.current
  status : g.closeStatus ≠ some .inProgress

theorem RespLost.mono {accepts : Nat → Bool} {groups more : List Group} {g : GenCtx}
    (lost : RespLost accepts groups g) (longer : groups <+: more) : RespLost accepts more g := by
  obtain ⟨r, reads, told, before, tells⟩ := lost.read
  exact ⟨lost.gone, r, reads, told, before.trans longer, tells⟩

/-- The context after an event that the client took. -/
def sent (event : RespEvent) (g : GenCtx) : GenCtx :=
  { g with seq := g.seq + 1, wire := g.wire ++ [.typed g.seq event], dead := false }

/-- One event, when the reader takes it. -/
theorem resp_send_good {accepts : Nat → Bool} {g : GenCtx} (here : Here accepts g) {event : RespEvent}
    {r next : Reader} (reads : Reader.read g.wire = some r) (seq : r.seq = g.seq)
    (taken : ({ r with seq := r.seq + 1 } : Reader).event event = some next)
    {groups : List Group} (known : ∃ told, told <+: groups ∧ List.Forall₂ Tells next.closed told)
    {kept : GenCtx → Prop}
    (keeping : Here accepts (sent event g) → Reader.read (sent event g).wire = some next →
      kept (sent event g)) :
    Good (RespLost accepts groups) kept (respSend accepts event g) := by
  have goes : Reader.read (g.wire ++ [.typed g.seq event]) = some next := by
    rw [← seq, read_typed reads, taken]
  have same : Here accepts { g with seq := g.seq + 1 } := ⟨here.alive, here.taken⟩
  apply send_frame_good same
  · intro gone
    exact ⟨gone, next, goes, known⟩
  · intro still
    exact keeping still goes

/-- One event inside the turn. -/
theorem resp_send_at {accepts : Nat → Bool} {g : GenCtx} (here : Here accepts g) {event : RespEvent}
    {item item' : Option Reading} {closed closed' : List (Item × List Bytes)}
    (reads : Reader.read g.wire = some (readerAt g.seq item closed))
    (taken : (readerAt (g.seq + 1) item closed).event event =
      some (readerAt (g.seq + 1) item' closed'))
    {groups : List Group} (known : ∃ told, told <+: groups ∧ List.Forall₂ Tells closed' told)
    {kept : GenCtx → Prop}
    (keeping : Here accepts (sent event g) →
      Reader.read (sent event g).wire = some (readerAt (sent event g).seq item' closed') →
        kept (sent event g)) :
    Good (RespLost accepts groups) kept (respSend accepts event g) :=
  resp_send_good here reads rfl taken known keeping

theorem sent_kept {event : RespEvent} {g : GenCtx} (quiet : frameText (.typed g.seq event) = none) :
    Kept g (sent event g) [] := by
  refine ⟨rfl, rfl, rfl, ?_⟩
  rw [sent, texts_append]
  simp [texts, quiet]

/-! ## Closing an item -/

/-- What the item routines read and the part routines leave alone. -/
structure SameItem (g g' : GenCtx) : Prop where
  kind : g'.itemKind = g.itemKind
  id : g'.itemId = g.itemId
  text : g'.itemText = g.itemText
  index : g'.outputIndex = g.outputIndex
  items : g'.outItems = g.outItems
  status : g'.closeStatus = g.closeStatus

@[simp] theorem named_at (seq : Nat) (reading : Reading) (closed : List (Item × List Bytes)) :
    (readerAt seq (some reading) closed).named reading.kind ⟨reading.kind, closed.length⟩
      closed.length = some reading := by
  rw [Reader.named, if_pos ⟨rfl, rfl, rfl⟩]
  simp [readerAt]

/-- The item when its text is done. -/
def textOver (group : Group) : Reading :=
  { readingOf group with done := some (sbEsc group.pieces.flatten) }

/-- The item when its part is done. -/
def partOver (group : Group) : Reading :=
  { textOver group with sealed_ := group.kind ≠ .functionCall }

theorem text_done_taken (seq : Nat) (group : Group) (closed : List (Item × List Bytes)) :
    (readerAt seq (some (readingOf group)) closed).event
        (.textDone group.kind ⟨group.kind, closed.length⟩ closed.length
          (sbEsc group.pieces.flatten)) =
      some (readerAt seq (some (textOver group)) closed) := by
  have named := named_at seq (readingOf group) closed
  simp only [readingOf] at named
  rw [Reader.event, readingOf, named, Option.bind_some, if_pos]
  · rfl
  · by_cases call : group.kind = .functionCall
    · simp [call]
    · simp [call]

theorem part_done_taken (seq : Nat) {group : Group} (call : group.kind ≠ .functionCall)
    (closed : List (Item × List Bytes)) :
    (readerAt seq (some (textOver group)) closed).event
        (.partDone group.kind ⟨group.kind, closed.length⟩ closed.length
          (sbEsc group.pieces.flatten)) =
      some (readerAt seq (some (partOver group)) closed) := by
  have named := named_at seq (textOver group) closed
  simp only [textOver, readingOf] at named
  rw [Reader.event, textOver, readingOf, named, Option.bind_some, if_pos ⟨call, rfl, rfl⟩]
  simp [partOver, textOver, readingOf, readerAt, call]

theorem item_done_taken (seq : Nat) (group : Group) (closed : List (Item × List Bytes)) {item : Item}
    (kind : item.kind = group.kind) (id : item.id = ⟨group.kind, closed.length⟩)
    (text : item.text = some (sbEsc group.pieces.flatten)) (status : item.status ≠ .inProgress) :
    (readerAt seq (some (partOver group)) closed).event (.itemDone closed.length item) =
      some (readerAt seq none (closed ++ [(item, group.pieces.map sbEsc)])) := by
  have named := named_at seq (partOver group) closed
  simp only [partOver, textOver, readingOf] at named
  rw [Reader.event, kind, id, partOver, textOver, readingOf, named, Option.bind_some, if_pos]
  · rfl
  · refine ⟨by simp, text, status, ?_⟩
    by_cases call : group.kind = .functionCall
    · exact Or.inl call
    · exact Or.inr (by simp [call])

theorem close_part_good {accepts : Nat → Bool} {groups : List Group} {group : Group} {g : GenCtx}
    {closed : List (Item × List Bytes)} (here : Here accepts g)
    (reads : Reader.read g.wire = some (readerAt g.seq (some (readingOf group)) closed))
    (count : closed.length = g.outputIndex)
    (known : ∃ told, told <+: groups ∧ List.Forall₂ Tells closed told)
    (emits : Emits g (some group)) :
    Good (RespLost accepts groups)
      (fun g' => Here accepts g' ∧
        Reader.read g'.wire = some (readerAt g'.seq (some (partOver group)) closed) ∧
        SameItem g g' ∧ Kept g g' [])
      (closePart accepts g) := by
  obtain ⟨-, parted, kind, id, text⟩ := emits
  have shape : respShapeOf g.itemKind = group.kind := by
    rw [kind]
    rfl
  rw [closePart, if_pos parted, shape, text, id, ← count]
  apply good_next (fun g' => Here accepts g' ∧
      Reader.read g'.wire = some (readerAt g'.seq (some (textOver group)) closed) ∧
      SameItem g g' ∧ Kept g g' [])
  · apply resp_send_at here reads (text_done_taken _ _ _) known
    intro still goes
    exact ⟨still, goes, ⟨rfl, rfl, rfl, rfl, rfl, rfl⟩, sent_kept rfl⟩
  · rintro g' ⟨still, goes, same, kept⟩
    have over_ : ∀ g'', Here accepts g'' →
        Reader.read g''.wire = some (readerAt g''.seq (some (partOver group)) closed) →
        SameItem g g'' → Kept g g'' [] →
        Here accepts { g'' with partOpen := false } ∧
          Reader.read g''.wire = some (readerAt g''.seq (some (partOver group)) closed) ∧
          SameItem g { g'' with partOpen := false } ∧ Kept g { g'' with partOpen := false } [] :=
      fun g'' last reads' same' kept' =>
        ⟨⟨last.alive, last.taken⟩, reads',
          ⟨same'.kind, same'.id, same'.text, same'.index, same'.items, same'.status⟩,
          ⟨kept'.api, kept'.pend, kept'.pendReason, kept'.deltas⟩⟩
    by_cases call : group.kind = .functionCall
    · have nothing : partOver group = textOver group := by
        simp [partOver, textOver, readingOf, call]
      rw [if_pos call, next_zero]
      apply good_zero
      rw [← nothing] at goes
      exact over_ g' still goes same kept
    · have item : g'.itemText = group.pieces.flatten ∧ g'.itemId = ⟨group.kind, closed.length⟩ :=
        ⟨same.text.trans text, by rw [same.id, id, ← count]⟩
      rw [if_neg call, item.1, item.2, same.index, ← count]
      apply good_next (fun g'' => Here accepts g'' ∧
          Reader.read g''.wire = some (readerAt g''.seq (some (partOver group)) closed) ∧
          SameItem g g'' ∧ Kept g g'' [])
      · apply resp_send_at still goes (part_done_taken _ call _) known
        intro last reads'
        exact ⟨last, reads', ⟨same.kind, same.id, same.text, same.index, same.items, same.status⟩,
          kept.trans (sent_kept rfl)⟩
      · rintro g'' ⟨last, reads', same', kept'⟩
        exact good_zero (over_ g'' last reads' same' kept')

/-- The item that an open item is rendered as. -/
theorem item_json_tells {g : GenCtx} {group : Group} (kind : g.itemKind = some group.kind)
    (text : g.itemText = group.pieces.flatten) (status : Status) :
    (respItemJson g status true).kind = group.kind ∧ (respItemJson g status true).id = g.itemId ∧
      (respItemJson g status true).text = some (sbEsc group.pieces.flatten) ∧
      (respItemJson g status true).status = status := by
  have shape : respShapeOf g.itemKind = group.kind := by
    rw [kind]
    rfl
  rw [respItemJson, shape, text]
  by_cases call : group.kind = .functionCall
  · simp [call]
  · simp [call]

/-- An open item closes and joins the output. -/
theorem resp_close_open {accepts : Nat → Bool} {groups : Groups} {group : Group} {g : GenCtx}
    (shape : RespShape accepts groups g) (current : groups.current = some group) :
    Good (RespLost accepts groups.close.closed)
      (fun g' => RespShape accepts groups.close g' ∧ Kept g g' []) (respCloseItem accepts g) := by
  obtain ⟨closed, reads, items, count, tells⟩ := shape.read
  have emits := shape.emits
  rw [current] at emits reads
  have known : ∃ told, told <+: groups.close.closed ∧ List.Forall₂ Tells closed told :=
    ⟨groups.closed, close_grows groups, tells⟩
  have status := shape.status
  have part := close_part_good shape.here reads count known emits
  obtain ⟨opened, -, kind, id, text⟩ := emits
  rw [respCloseItem, opened, shape.here.alive, if_neg (by simp)]
  apply good_next _ part
  rintro g' ⟨still, goes, same, kept⟩
  have json := item_json_tells (g := g') (same.kind.trans kind) (same.text.trans text)
    (g'.closeStatus.getD .completed)
  have ended : g'.closeStatus.getD .completed ≠ .inProgress := by
    rw [same.status]
    cases verdict : g.closeStatus with
    | none => simp
    | some status' =>
        intro bad
        apply status
        rw [verdict, ← bad]
        rfl
  have entry : Tells (respItemJson g' (g'.closeStatus.getD .completed) true,
      group.pieces.map sbEsc) group := ⟨json.1, json.2.2.1, rfl⟩
  have told : List.Forall₂ Tells
      (closed ++ [(respItemJson g' (g'.closeStatus.getD .completed) true,
        group.pieces.map sbEsc)]) groups.close.closed := by
    rw [Groups.close, current]
    exact List.rel_append tells (List.Forall₂.cons entry List.Forall₂.nil)
  have index : g'.outputIndex = closed.length := by rw [same.index, count]
  have taken := item_done_taken (g'.seq + 1) group closed json.1 (by rw [json.2.1, same.id, id, count])
    json.2.2.1 (by rw [json.2.2.2]; exact ended)
  rw [← index] at taken
  apply good_after
    (fun g'' => RespShape accepts groups.close { g'' with
      itemOpen := false, outputIndex := g''.outputIndex + 1, itemText := [] } ∧ Kept g g'' [])
    (fun g'' => { g'' with
      itemOpen := false, outputIndex := g''.outputIndex + 1, itemText := [] })
  · apply resp_send_at
    · exact ⟨still.alive, still.taken⟩
    · exact goes
    · exact taken
    · exact ⟨_, List.prefix_refl _, told⟩
    · intro last reads'
      constructor
      · constructor
        · exact ⟨last.alive, last.taken⟩
        · refine ⟨_, reads', ?_, ?_, told⟩
          · rw [List.map_append, items, ← same.items]
            rfl
          · rw [List.length_append, List.length_singleton]
            simp only [sent]
            rw [index]
        · exact ⟨rfl, rfl⟩
        · simp only [sent]
          rw [same.status]
          exact status
      · refine ⟨kept.api, kept.pend, kept.pendReason, ?_⟩
        rw [sent, texts_append, kept.deltas]
        exact List.append_nil _
  · intro g'' lost
    exact ⟨⟨lost.gone.dead, lost.gone.taken⟩, lost.read⟩
  · rintro g'' ⟨shape', kept'⟩
    exact ⟨shape', ⟨kept'.api, kept'.pend, kept'.pendReason, kept'.deltas⟩⟩

theorem resp_close_good {accepts : Nat → Bool} {groups : Groups} {g : GenCtx}
    (shape : RespShape accepts groups g) :
    Good (RespLost accepts groups.close.closed)
      (fun g' => RespShape accepts groups.close g' ∧ Kept g g' []) (respCloseItem accepts g) := by
  cases current : groups.current with
  | some group => exact resp_close_open shape current
  | none =>
      have emits := shape.emits
      rw [current] at emits
      have same : groups.close = groups := by
        rw [Groups.close, current, Option.toList_none, List.append_nil, ← current]
      rw [respCloseItem, emits.1, if_pos (by simp), shape.here.alive, same]
      exact good_zero ⟨shape, Kept.refl g⟩

/-! ## Opening an item -/

/-- The reading of an item that was just announced. -/
def announced (kind : Kind) : Reading :=
  { kind, parted := false, deltas := [], done := none, sealed_ := false }

theorem item_added_taken (seq : Nat) (closed : List (Item × List Bytes)) {item : Item} {kind : Kind}
    (named : item.kind = kind) (id : item.id = ⟨kind, closed.length⟩)
    (status : item.status = .inProgress) :
    (readerAt seq none closed).event (.itemAdded closed.length item) =
      some (readerAt seq (some (announced kind)) closed) := by
  rw [Reader.event, if_pos ⟨rfl, rfl, rfl, by rw [named, id], status⟩, named]
  rfl

theorem part_added_taken (seq : Nat) (closed : List (Item × List Bytes)) {kind : Kind}
    (call : kind ≠ .functionCall) :
    (readerAt seq (some (announced kind)) closed).event
        (.partAdded kind ⟨kind, closed.length⟩ closed.length) =
      some (readerAt seq (some (readingOf ⟨kind, []⟩)) closed) := by
  have named := named_at seq (announced kind) closed
  simp only [announced] at named
  rw [Reader.event, announced, named, Option.bind_some, if_pos ⟨call, rfl⟩]
  simp [readingOf, readerAt, call]

theorem item_json_added (g : GenCtx) (kind : Kind) :
    (respItemJson { g with itemKind := some kind, itemId := ⟨kind, g.outputIndex⟩ } .inProgress
        false).kind = kind ∧
      (respItemJson { g with itemKind := some kind, itemId := ⟨kind, g.outputIndex⟩ } .inProgress
        false).id = ⟨kind, g.outputIndex⟩ ∧
      (respItemJson { g with itemKind := some kind, itemId := ⟨kind, g.outputIndex⟩ } .inProgress
        false).status = .inProgress := by
  by_cases call : kind = .functionCall
  · simp [respItemJson, respShapeOf, call]
  · simp [respItemJson, respShapeOf, call]

/-- Announcing an item while none is open. -/
theorem announce_good {accepts : Nat → Bool} {groups : Groups} {g : GenCtx}
    (shape : RespShape accepts groups g) (current : groups.current = none) (kind : Kind) :
    Good (RespLost accepts groups.closed)
      (fun g' => RespShape accepts { groups with current := some ⟨kind, []⟩ } g' ∧ Kept g g' [])
      ((respSend accepts
        (.itemAdded g.outputIndex
          (respItemJson { g with itemKind := some kind, itemId := ⟨kind, g.outputIndex⟩ }
            .inProgress false))
        { g with itemKind := some kind, itemId := ⟨kind, g.outputIndex⟩ }).next
        fun g =>
          if kind = .functionCall then ⟨{ g with itemOpen := true, partOpen := true }, false⟩
          else
            (respSend accepts (.partAdded kind g.itemId g.outputIndex)
              { g with itemOpen := true }).next fun g =>
                ⟨{ g with partOpen := true }, false⟩) := by
  obtain ⟨closed, reads, items, count, tells⟩ := shape.read
  have emits := shape.emits
  rw [current] at emits reads
  have known : ∃ told, told <+: groups.closed ∧ List.Forall₂ Tells closed told :=
    ⟨groups.closed, List.prefix_refl _, tells⟩
  have json := item_json_added g kind
  have taken := item_added_taken (g.seq + 1) closed json.1 (by rw [json.2.1, count]) json.2.2
  rw [count] at taken
  apply good_next fun g' => Here accepts g' ∧
    Reader.read g'.wire = some (readerAt g'.seq (some (announced kind)) closed) ∧
    g'.outputIndex = closed.length ∧ g'.outItems = g.outItems ∧ g'.itemText = [] ∧
    g'.itemKind = some kind ∧ g'.itemId = ⟨kind, g'.outputIndex⟩ ∧
    g'.closeStatus = g.closeStatus ∧ Kept g g' []
  · apply resp_send_at
    · exact ⟨shape.here.alive, shape.here.taken⟩
    · exact reads
    · exact taken
    · exact known
    · intro still goes
      refine ⟨still, goes, count.symm, rfl, emits.2, rfl, rfl, rfl, rfl, rfl, rfl, ?_⟩
      rw [sent, texts_append]
      rfl
  · rintro g' ⟨still, goes, index, same, text, named, id, status, kept⟩
    by_cases call : kind = .functionCall
    · rw [if_pos call]
      apply good_zero
      have reading : announced kind = readingOf ⟨kind, []⟩ := by
        simp [announced, readingOf, call]
      rw [reading] at goes
      refine ⟨⟨⟨still.alive, still.taken⟩, ⟨closed, goes, items.trans same.symm, index.symm, tells⟩,
        ⟨rfl, rfl, named, id, text⟩, ?_⟩, ⟨kept.api, kept.pend, kept.pendReason, kept.deltas⟩⟩
      simp only [status]
      exact shape.status
    · have part := part_added_taken (g'.seq + 1) closed call
      rw [← index, ← id] at part
      rw [if_neg call]
      apply good_next fun g'' => RespShape accepts { groups with current := some ⟨kind, []⟩ }
        { g'' with partOpen := true } ∧ Kept g g'' []
      · apply resp_send_at
        · exact ⟨still.alive, still.taken⟩
        · exact goes
        · exact part
        · exact known
        · intro last reads'
          constructor
          · refine ⟨⟨last.alive, last.taken⟩, ⟨closed, reads', items.trans same.symm, index.symm,
              tells⟩, ⟨rfl, rfl, named, id, text⟩, ?_⟩
            simp only [sent, status]
            exact shape.status
          · refine ⟨kept.api, kept.pend, kept.pendReason, ?_⟩
            rw [sent, texts_append, kept.deltas]
            exact List.append_nil _
      · rintro g'' ⟨shape', kept'⟩
        exact good_zero ⟨shape', ⟨kept'.api, kept'.pend, kept'.pendReason, kept'.deltas⟩⟩

/-- The current group changes to another kind: its item closes first. -/
theorem turn_to_other {groups : Groups} {kind : Kind}
    (other : ∀ group, groups.current = some group → group.kind ≠ kind) :
    groups.turnTo kind = { groups.close with current := some ⟨kind, []⟩ } := by
  rw [Groups.turnTo]
  cases current : groups.current with
  | none => simp [Groups.close, current]
  | some group => simp [other group current]

theorem turn_to_same {groups : Groups} {group : Group} (current : groups.current = some group) :
    groups.turnTo group.kind = groups := by
  rw [Groups.turnTo, current]
  simp

theorem resp_open_good {accepts : Nat → Bool} {groups : Groups} {g : GenCtx}
    (shape : RespShape accepts groups g) (kind : Kind) :
    Good (RespLost accepts (groups.turnTo kind).closed)
      (fun g' => RespShape accepts (groups.turnTo kind) g' ∧ Kept g g' [])
      (respOpenItem accepts kind g) := by
  have emits := shape.emits
  by_cases here : (g.itemOpen && g.itemKind == some kind) = true
  · have both := (Bool.and_eq_true _ _).mp here
    cases current : groups.current with
    | none =>
        rw [current] at emits
        rw [emits.1] at both
        cases both.1
    | some group =>
        rw [current] at emits
        have same : group.kind = kind := by
          have named := both.2
          rw [emits.2.2.1] at named
          simpa using named
        rw [respOpenItem, if_pos here, ← same, turn_to_same current]
        exact good_zero ⟨shape, Kept.refl g⟩
  · have other : ∀ group, groups.current = some group → group.kind ≠ kind := by
      intro group current same
      rw [current] at emits
      apply here
      rw [emits.1, emits.2.2.1, same]
      simp
    rw [respOpenItem, if_neg here, turn_to_other other]
    apply good_next _ (resp_close_good shape)
    rintro g' ⟨closed, kept⟩
    have opens := announce_good closed rfl kind
    exact good_mono opens (fun _ lost => lost) fun g'' good => ⟨good.1, kept.trans good.2⟩

/-! ## Deltas -/

theorem delta_taken (seq : Nat) (group : Group) (closed : List (Item × List Bytes)) (piece : Bytes) :
    (readerAt seq (some (readingOf group)) closed).event
        (.delta group.kind ⟨group.kind, closed.length⟩ closed.length (sbEsc piece)) =
      some (readerAt seq (some (readingOf { group with pieces := group.pieces ++ [piece] }))
        closed) := by
  have named := named_at seq (readingOf group) closed
  simp only [readingOf] at named
  rw [Reader.event, readingOf, named, Option.bind_some, if_pos]
  · simp [readingOf, readerAt]
  · by_cases call : group.kind = .functionCall
    · simp [call]
    · simp [call]

theorem resp_delta_good {accepts : Nat → Bool} {groups : Groups} {g : GenCtx}
    (shape : RespShape accepts groups g) (kind : Kind) (piece : Bytes) :
    Good (RespLost accepts ((groups.turnTo kind).add piece).closed)
      (fun g' => RespShape accepts ((groups.turnTo kind).add piece) g' ∧
        Kept g g' [(kind, sbEsc piece)])
      (respDelta accepts kind piece g) := by
  rw [respDelta, shape.here.alive, if_neg (by simp)]
  apply good_next _ (resp_open_good shape kind)
  rintro g' ⟨shape', kept⟩
  obtain ⟨⟨kind', said⟩, current, same⟩ := turn_to_current groups kind
  simp only at same
  rw [same] at current
  obtain ⟨closed, reads, items, count, tells⟩ := shape'.read
  have emits := shape'.emits
  rw [current] at emits reads
  have taken := delta_taken (g'.seq + 1) ⟨kind, said⟩ closed piece
  simp only at taken
  rw [count, ← emits.2.2.2.1] at taken
  have added : ((groups.turnTo kind).add piece).current =
      some ⟨kind, said ++ [piece]⟩ := by
    rw [Groups.add, current]
    rfl
  apply resp_send_at
  · exact ⟨shape'.here.alive, shape'.here.taken⟩
  · exact reads
  · exact taken
  · exact ⟨_, List.prefix_refl _, tells⟩
  · intro still goes
    constructor
    · refine ⟨⟨still.alive, still.taken⟩, ⟨closed, ?_, items, count, tells⟩, ?_, shape'.status⟩
      · rw [added]
        exact goes
      · rw [added]
        refine ⟨emits.1, emits.2.1, emits.2.2.1, emits.2.2.2.1, ?_⟩
        simp only [sent, emits.2.2.2.2, List.flatten_append, List.flatten_singleton]
    · refine ⟨kept.api, kept.pend, kept.pendReason, ?_⟩
      rw [sent, texts_append, kept.deltas, List.append_nil]
      rfl

end GridcoreRunner.Stream
