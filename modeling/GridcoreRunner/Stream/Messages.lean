import GridcoreRunner.Stream.Responses

/-!
# The Messages stream and its reader

Blocks instead of items, without parts inside them and without sequence numbers. An
error event may come at any point and ends the stream.
-/

namespace GridcoreRunner.Stream

set_option autoImplicit false

open GridcoreRunner.Json

/-! ## The reader -/

structure BlockReader where
  stage : Stage
  block : Option (Kind × List Bytes)
  closed : List (Kind × List Bytes)
deriving DecidableEq, Repr

def BlockReader.fresh : BlockReader := { stage := .fresh, block := none, closed := [] }

def BlockReader.event (r : BlockReader) : AnthEvent → Option BlockReader
  | .messageStart => if r.stage = .connected then some { r with stage := .running } else none
  | .blockStart index kind _ =>
      if r.stage = .running ∧ r.block = none ∧ index = r.closed.length then
        some { r with block := some (kind, []) }
      else none
  | .blockDelta index kind text =>
      if r.stage = .running ∧ index = r.closed.length then
        (r.block.filter fun block => block.1 = kind).map fun block =>
          { r with block := some (kind, block.2 ++ [text]) }
      else none
  | .blockStop index =>
      if r.stage = .running ∧ index = r.closed.length then
        r.block.map fun block => { r with block := none, closed := r.closed ++ [block] }
      else none
  | .messageDelta _ _ =>
      if r.stage = .running ∧ r.block = none then some { r with stage := .ended } else none
  | .messageStop => if r.stage = .ended then some { r with stage := .over } else none
  | .error _ => if r.stage = .running then some { r with stage := .failed } else none

def BlockReader.take (r : BlockReader) : Frame → Option BlockReader
  | .headers => if r.stage = .fresh then some { r with stage := .connected } else none
  | .plain event => r.event event
  | _ => none

def BlockReader.read (wire : List Frame) : Option BlockReader :=
  wire.foldlM BlockReader.take BlockReader.fresh

theorem block_read_concat (wire : List Frame) (frame : Frame) :
    BlockReader.read (wire ++ [frame]) = (BlockReader.read wire).bind fun r => r.take frame := by
  rw [BlockReader.read, List.foldlM_append]
  simp [BlockReader.read]

/-! ## What the reader knows of the groups -/

/-- A group as it comes over the wire. -/
def blockOf (group : Group) : Kind × List Bytes := (group.kind, group.pieces.map sbEsc)

structure AnthLost (accepts : Nat → Bool) (groups : List Group) (g : GenCtx) : Prop where
  gone : Gone accepts g
  read : ∃ r, BlockReader.read g.wire = some r ∧ ∃ told, told <+: groups ∧ r.closed = told.map blockOf

theorem AnthLost.mono {accepts : Nat → Bool} {groups more : List Group} {g : GenCtx}
    (lost : AnthLost accepts groups g) (longer : groups <+: more) : AnthLost accepts more g := by
  obtain ⟨r, reads, told, before, same⟩ := lost.read
  exact ⟨lost.gone, r, reads, told, before.trans longer, same⟩

/-- The reader inside the turn. -/
def blockReaderAt (groups : Groups) : BlockReader :=
  { stage := .running, block := groups.current.map blockOf, closed := groups.closed.map blockOf }

structure AnthShape (accepts : Nat → Bool) (groups : Groups) (g : GenCtx) : Prop where
  here : Here accepts g
  read : BlockReader.read g.wire = some (blockReaderAt groups)
  count : groups.closed.length = g.outputIndex
  opened : g.itemOpen = groups.current.isSome
  kind : ∀ group, groups.current = some group → g.itemKind = some group.kind

/-- The context after an event that the client took. -/
def sentPlain (event : AnthEvent) (g : GenCtx) : GenCtx :=
  { g with wire := g.wire ++ [.plain event], dead := false }

theorem anth_send_good {accepts : Nat → Bool} {g : GenCtx} (here : Here accepts g) {event : AnthEvent}
    {r next : BlockReader} (reads : BlockReader.read g.wire = some r)
    (taken : r.event event = some next) {groups : List Group}
    (known : ∃ told, told <+: groups ∧ next.closed = told.map blockOf) {kept : GenCtx → Prop}
    (keeping : Here accepts (sentPlain event g) →
      BlockReader.read (sentPlain event g).wire = some next → kept (sentPlain event g)) :
    Good (AnthLost accepts groups) kept (anthSend accepts event g) := by
  have goes : BlockReader.read (g.wire ++ [.plain event]) = some next := by
    rw [block_read_concat, reads, Option.bind_some, BlockReader.take, taken]
  apply send_frame_good here
  · intro gone
    exact ⟨gone, next, goes, known⟩
  · intro still
    exact keeping still goes

/-! ## The routines -/

theorem anth_close_good {accepts : Nat → Bool} {groups : Groups} {g : GenCtx}
    (shape : AnthShape accepts groups g) :
    Good (AnthLost accepts groups.close.closed)
      (fun g' => AnthShape accepts groups.close g' ∧ Kept g g' []) (anthCloseBlock accepts g) := by
  cases current : groups.current with
  | none =>
      have same : groups.close = groups := by
        rw [Groups.close, current, Option.toList_none, List.append_nil, ← current]
      have opened := shape.opened
      rw [current] at opened
      rw [anthCloseBlock, opened, if_pos (by simp), shape.here.alive, same]
      exact good_zero ⟨shape, Kept.refl g⟩
  | some group =>
      have opened := shape.opened
      rw [current] at opened
      have taken : (blockReaderAt groups).event (.blockStop g.outputIndex) =
          some (blockReaderAt groups.close) := by
        rw [BlockReader.event, if_pos ⟨rfl, by simp [blockReaderAt, shape.count]⟩]
        simp [blockReaderAt, current, Groups.close]
      rw [anthCloseBlock, opened, shape.here.alive, if_neg (by simp)]
      apply good_after
        (fun g' => AnthShape accepts groups.close { g' with
          itemOpen := false, outputIndex := g'.outputIndex + 1, itemText := [] } ∧ Kept g g' [])
        (fun g' => { g' with itemOpen := false, outputIndex := g'.outputIndex + 1, itemText := [] })
      · apply anth_send_good shape.here shape.read taken
        · exact ⟨groups.close.closed, List.prefix_refl _, rfl⟩
        · intro still goes
          constructor
          · refine ⟨⟨still.alive, still.taken⟩, goes, ?_, rfl, ?_⟩
            · simp [Groups.close, current, sentPlain, shape.count]
            · intro other same
              cases same
          · refine ⟨rfl, rfl, rfl, ?_⟩
            rw [sentPlain, texts_append]
            rfl
      · intro g' lost
        exact ⟨⟨lost.gone.dead, lost.gone.taken⟩, lost.read⟩
      · rintro g' ⟨shape', kept⟩
        exact ⟨shape', ⟨kept.api, kept.pend, kept.pendReason, kept.deltas⟩⟩

theorem anth_open_good {accepts : Nat → Bool} {groups : Groups} {g : GenCtx}
    (shape : AnthShape accepts groups g) (kind : Kind) :
    Good (AnthLost accepts (groups.turnTo kind).closed)
      (fun g' => AnthShape accepts (groups.turnTo kind) g' ∧ Kept g g' [])
      (anthOpenBlock accepts kind g) := by
  by_cases here : (g.itemOpen && g.itemKind == some kind) = true
  · have both := (Bool.and_eq_true _ _).mp here
    have opened := both.1
    rw [shape.opened] at opened
    obtain ⟨group, current⟩ := Option.isSome_iff_exists.mp opened
    have same : group.kind = kind := by
      have named := both.2
      rw [shape.kind group current] at named
      simpa using named
    rw [anthOpenBlock, if_pos here, ← same, turn_to_same current]
    exact good_zero ⟨shape, Kept.refl g⟩
  · have other : ∀ group, groups.current = some group → group.kind ≠ kind := by
      intro group current same
      apply here
      rw [shape.opened, shape.kind group current, current, same]
      simp
    rw [anthOpenBlock, if_neg here, turn_to_other other]
    apply good_next _ (anth_close_good shape)
    rintro g' ⟨closed, kept⟩
    apply good_next fun g'' => AnthShape accepts { groups.close with current := some ⟨kind, []⟩ }
      { g'' with itemOpen := true } ∧ Kept g g'' []
    · apply anth_send_good
      · exact ⟨closed.here.alive, closed.here.taken⟩
      · exact closed.read
      · rw [BlockReader.event, if_pos ⟨rfl, rfl, by simp [blockReaderAt, closed.count]⟩]
      · exact ⟨groups.close.closed, List.prefix_refl _, rfl⟩
      · intro still goes
        constructor
        · refine ⟨⟨still.alive, still.taken⟩, goes, closed.count, rfl, ?_⟩
          intro group same
          cases same
          rfl
        · refine ⟨kept.api, kept.pend, kept.pendReason, ?_⟩
          rw [sentPlain, texts_append, kept.deltas]
          exact List.append_nil _
    · rintro g'' ⟨shape', kept'⟩
      exact good_zero ⟨shape', ⟨kept'.api, kept'.pend, kept'.pendReason, kept'.deltas⟩⟩

theorem anth_delta_good {accepts : Nat → Bool} {groups : Groups} {g : GenCtx}
    (shape : AnthShape accepts groups g) (kind : Kind) (piece : Bytes) :
    Good (AnthLost accepts ((groups.turnTo kind).add piece).closed)
      (fun g' => AnthShape accepts ((groups.turnTo kind).add piece) g' ∧
        Kept g g' [(kind, sbEsc piece)])
      (anthDelta accepts kind piece g) := by
  rw [anthDelta, shape.here.alive, if_neg (by simp)]
  apply good_next _ (anth_open_good shape kind)
  rintro g' ⟨shape', kept⟩
  obtain ⟨group, current, same⟩ := turn_to_current groups kind
  have added : ((groups.turnTo kind).add piece).current =
      some { group with pieces := group.pieces ++ [piece] } := by
    rw [Groups.add, current]
    rfl
  have taken : (blockReaderAt (groups.turnTo kind)).event
      (.blockDelta g'.outputIndex kind (sbEsc piece)) =
        some (blockReaderAt ((groups.turnTo kind).add piece)) := by
    rw [BlockReader.event, if_pos ⟨rfl, by simp [blockReaderAt, shape'.count]⟩]
    simp only [blockReaderAt, current, added, Option.map_some]
    simp [blockOf, same, Groups.add]
  apply anth_send_good
  · exact ⟨shape'.here.alive, shape'.here.taken⟩
  · exact shape'.read
  · exact taken
  · exact ⟨_, List.prefix_refl _, rfl⟩
  · intro still goes
    constructor
    · refine ⟨⟨still.alive, still.taken⟩, goes, shape'.count, ?_, ?_⟩
      · rw [added]
        have opened := shape'.opened
        rw [current] at opened
        exact opened
      · intro other now
        rw [added] at now
        cases now
        exact shape'.kind group current
    · refine ⟨kept.api, kept.pend, kept.pendReason, ?_⟩
      rw [sentPlain, texts_append, kept.deltas, List.append_nil]
      rfl

end GridcoreRunner.Stream
