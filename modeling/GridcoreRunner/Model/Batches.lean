import GridcoreRunner.Model.Chunked

/-!
# A prompt in batches

The recurrent layer keeps a ring and a state from call to call, everything else is scratch.
Seen from outside it is a machine that takes one projected input after the other and puts
out one row for each. A call works off several inputs at once; where the calls of a prompt
begin and end, which core each takes and how its threads get on does not show.
-/

namespace GridcoreRunner.Model.Mixer

set_option autoImplicit false

open Lanes

variable {F D : Type*} (m : Mixer F D)

/-! ## One token, wherever its rows start -/

variable {m} {row : Nat → F}

section Token

variable {b : Nat} (input : ∀ x < m.dInProj, m.qkv (b * m.dInProj + x) = row x)

/-- The mixer with one row of inputs. -/
abbrev alone (m : Mixer F D) (row : Nat → F) : Mixer F D := { m with qkv := row }

/-- A token, all the way through the serial core. -/
def token (m : Mixer F D) (b : Nat) (mem : Buffers F) : Buffers F :=
  m.gateNorm b (m.scanToken b (m.takeIn b mem))

/-- What goes from call to call: the ring, and the state of the scan. -/
abbrev Carried (F : Type*) := (Nat → F) × (Nat → F)

/-- A machine that is fed one input after the other. -/
def feed {Input State Output : Type*} (step : Input → State → State × Output) :
    List Input → State → State × List Output
  | [], state => (state, [])
  | input :: rest, state =>
      let now := step input state
      let later := feed step rest now.1
      (later.1, now.2 :: later.2)

theorem feed_append {Input State Output : Type*} (step : Input → State → State × Output)
    (first second : List Input) (state : State) :
    feed step (first ++ second) state =
      ((feed step second (feed step first state).1).1,
        (feed step first state).2 ++ (feed step second (feed step first state).1).2) := by
  induction first generalizing state with
  | nil => rfl
  | cons input first induction =>
      rw [List.cons_append, feed, induction]
      rfl

/-- The first row of the outputs. -/
def outputRow (m : Mixer F D) (b : Nat) (z : Nat → F) : List F :=
  (List.range m.inner).map fun i => z (b * m.inner + i)

/-- One token of a decode: a call with one input, on scratch memory that holds nothing. -/
def decode (m : Mixer F D) (row : Nat → F) (carried : Carried F) : Carried F × List F :=
  let after := (alone m row).mamba2SsdCoreSerial 1
    ⟨fun _ => m.fl.zero, fun _ => m.fl.zero, carried.1, carried.2⟩
  ((after.conv, after.states), m.outputRow 0 after.z)

/-- One call: `n` projected inputs, the core and the schedule it runs by, and the scratch
memory as earlier calls have left it. -/
structure Call (F : Type*) where
  n : Nat
  rows : Nat → Nat → F
  forceSerial : Bool
  chunk : Nat
  schedule : Schedule
  aux : Nat → F
  z : Nat → F

def Call.inputs (call : Call F) : List (Nat → F) := (List.range call.n).map call.rows

def batch (m : Mixer F D) (call : Call F) (carried : Carried F) : Carried F × List (List F) :=
  let mixer := alone m fun i => call.rows (i / m.dInProj) (i % m.dInProj)
  let after := mixer.mamba2SsdCore call.forceSerial call.schedule call.n call.chunk
    ⟨call.aux, call.z, carried.1, carried.2⟩
  ((after.conv, after.states), (List.range call.n).map fun b => m.outputRow b after.z)

/-- A call that the chunked core may take: its chunks are not empty, and every worker has run
its lanes. -/
structure Call.Fits (call : Call F) (m : Mixer F D) : Prop where
  positive : 0 < call.chunk
  runs : call.schedule.Runs m call.n call.chunk

theorem core_serial {s : Schedule} {n chunk : Nat} (positive : 0 < chunk)
    (order : s.Runs m n chunk) (forceSerial : Bool) (mem : Buffers F) :
    m.mamba2SsdCore forceSerial s n chunk mem = m.mamba2SsdCoreSerial n mem := by
  unfold mamba2SsdCore
  by_cases chunked : 1 < n ∧ forceSerial = false ∧ m.convKernel ≤ ssmMaxConvKernel
  · rw [if_pos chunked, m.chunked_serial positive order]
  · rw [if_neg chunked]

/-- Neither the core that is picked, nor the size of the chunks, nor the order in which the
threads get on changes a bit of any buffer. -/
theorem chunking_is_invisible (m : Mixer F D) {n chunk chunk' : Nat} {s s' : Schedule}
    (positive : 0 < chunk) (positive' : 0 < chunk') (order : s.Runs m n chunk)
    (order' : s'.Runs m n chunk') (forceSerial forceSerial' : Bool) (mem : Buffers F) :
    m.mamba2SsdCore forceSerial s n chunk mem = m.mamba2SsdCore forceSerial' s' n chunk' mem := by
  rw [core_serial positive order, core_serial positive' order']

/-- Two heads in two groups, with a ring of one input. -/
def twoHeads : Mixer Nat Nat where
  nh := 2
  inner := 4
  ds := 1
  ng := 2
  convKernel := 2
  kernelPos := by decide
  innerPos := by decide
  statePos := by decide
  headsPos := by decide
  groupsPos := by decide
  headsDivide := by decide
  groupsDivideHeads := by decide
  groupsDivideInner := by decide
  fl := ⟨0, 1, (· + ·), (· * ·), (· / ·), id, id, id, id, id, 0, (· + ·), (· / ·), id⟩
  ly := ⟨fun c k => c + k, id, id, id, id, id⟩
  rmsEps := 1
  qkv := id

theorem chunking_is_invisible_two_heads :
    twoHeads.mamba2SsdCore false (twoHeads.inTurn 3 1) 3 1 ⟨id, id, id, id⟩ =
      twoHeads.mamba2SsdCore true (twoHeads.inTurn 3 2) 3 2 ⟨id, id, id, id⟩ :=
  chunking_is_invisible twoHeads (by decide) (by decide) (twoHeads.inTurn_runs 3 1)
    (twoHeads.inTurn_runs 3 2) false true ⟨id, id, id, id⟩

end Token

end GridcoreRunner.Model.Mixer
