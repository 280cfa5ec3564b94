import GridcoreRunner.Lanes
import GridcoreRunner.Scatter

/-!
# The Mamba-2 mixer

The recurrent layer of the hybrid models, between its two projections: a causal convolution
with a ring of past inputs, the state space scan of every head, and a gated norm. It is
there twice. The serial core takes one token after the other. The chunked core takes one
phase after the other and spreads each over the threads of the pool.

Floating point is only a type with operations here. Nothing is assumed about them, so that
two sums are the same only when they were added in the same order.
-/

namespace GridcoreRunner.Model

set_option autoImplicit false

open Lanes

/-- `float` and `double`, as far as the mixer calculates with them. -/
structure Floats (F D : Type*) where
  zero : F
  one : F
  add : F → F → F
  mul : F → F → F
  div : F → F → F
  neg : F → F
  expf : F → F
  sqrtf : F → F
  softplus : F → F
  wide : F → D
  wideZero : D
  wideAdd : D → D → D
  wideDiv : D → Nat → D
  narrow : D → F

/-- What the loader has checked of the hyperparameters. -/
structure Geometry where
  nh : Nat
  inner : Nat
  ds : Nat
  ng : Nat
  convKernel : Nat
  kernelPos : 0 < convKernel
  innerPos : 0 < inner
  statePos : 0 < ds
  headsPos : 0 < nh
  groupsPos : 0 < ng
  headsDivide : inner % nh = 0
  groupsDivideHeads : nh % ng = 0
  groupsDivideInner : inner % ng = 0

namespace Geometry

variable (g : Geometry)

def hd : Nat := g.inner / g.nh
def gsz : Nat := g.nh / g.ng
def convDim : Nat := g.inner + 2 * g.ng * g.ds
def dInProj : Nat := 2 * g.inner + 2 * g.ng * g.ds + g.nh
def histn : Nat := g.convKernel - 1
def perG : Nat := g.inner / g.ng

end Geometry

/-- One recurrent layer. `conv` is the convolution weight, dequantized row by row. -/
structure Layer (F : Type*) where
  conv : Nat → Nat → F
  conv1dB : Nat → F
  dt : Nat → F
  a : Nat → F
  d : Nat → F
  normW : Nat → F

/-- What a call of the mixer only reads: the layer, and the projected inputs in `qkv`. -/
structure Mixer (F D : Type*) extends Geometry where
  fl : Floats F D
  ly : Layer F
  rmsEps : F
  qkv : Nat → F

/-- What it writes: the convolved inputs, the outputs, the ring and the scan's state. -/
@[ext]
structure Buffers (F : Type*) where
  aux : Nat → F
  z : Nat → F
  conv : Nat → F
  states : Nat → F

/-- `memcpy` and `memmove`: the source is the memory as it was before. -/
def copied {F : Type*} (dst : Nat → F) (at' : Nat) (src : Nat → F) (from' len : Nat) : Nat → F :=
  fun i => if at' ≤ i ∧ i < at' + len then src (from' + (i - at')) else dst i

namespace Mixer

variable {F D : Type*} (m : Mixer F D)

def silu (x : F) : F := m.fl.div x (m.fl.add m.fl.one (m.fl.expf (m.fl.neg x)))

/-- One output of the convolution: the bias, the tap on the current input, then the taps on
what `past` holds, oldest first. -/
def convolved (past : Nat → F) (b c : Nat) : F :=
  m.silu ((List.range m.histn).foldl
    (fun sum k => m.fl.add sum (m.fl.mul (m.ly.conv c k) (past k)))
    (m.fl.add (m.ly.conv1dB c)
      (m.fl.mul (m.ly.conv c m.histn) (m.qkv (b * m.dInProj + m.inner + c)))))

/-- One round of the scan's inner loop: a cell of the state moves on, and what it adds to the
output is added. -/
def sweepRound (b grp sp : Nat) (dA xDt : F) (aux : Nat → F) (acc : F × (Nat → F)) (j : Nat) :
    F × (Nat → F) :=
  let xBC := b * m.convDim
  let s := m.fl.add (m.fl.mul (acc.2 (sp + j)) dA)
    (m.fl.mul (aux (xBC + m.inner + grp * m.ds + j)) xDt)
  (m.fl.add acc.1 (m.fl.mul s (aux (xBC + m.inner + m.ng * m.ds + grp * m.ds + j))),
    Function.update acc.2 (sp + j) s)

/-- The inner loop, over the row of the state that starts at `sp`. -/
def sweep (b grp sp : Nat) (dA xDt : F) (aux states : Nat → F) : F × (Nat → F) :=
  (List.range m.ds).foldl (m.sweepRound b grp sp dA xDt aux) (m.fl.zero, states)

/-- One row of one head, in one token. -/
def scanRow (b h p : Nat) (mem : Buffers F) : Buffers F :=
  let dt := m.fl.softplus (m.fl.add (m.qkv (b * m.dInProj + m.inner + m.convDim + h)) (m.ly.dt h))
  let dA := m.fl.expf (m.fl.mul dt (m.ly.a h))
  let x := mem.aux (b * m.convDim + h * m.hd + p)
  let swept := m.sweep b (h / m.gsz) (h * m.hd * m.ds + p * m.ds) dA (m.fl.mul x dt) mem.aux
    mem.states
  { mem with
    states := swept.2
    z := Function.update mem.z (b * m.inner + h * m.hd + p)
      (m.fl.add swept.1 (m.fl.mul (m.ly.d h) x)) }

/-- The gate of one token's outputs. -/
def gate (b : Nat) (y : Nat → F) : Nat → F :=
  loop m.inner (fun i y => Function.update y (b * m.inner + i)
    (m.fl.mul (y (b * m.inner + i)) (m.silu (m.qkv (b * m.dInProj + i))))) y

/-- The norm of one group of one token's outputs, with its sum of squares in `double`. -/
def groupNorm (b grp : Nat) (y : Nat → F) : Nat → F :=
  let yg := b * m.inner + grp * m.perG
  let ss := (List.range m.perG).foldl
    (fun ss i => m.fl.wideAdd ss (m.fl.wide (m.fl.mul (y (yg + i)) (y (yg + i))))) m.fl.wideZero
  let mean := m.fl.narrow (m.fl.wideDiv ss m.perG)
  let scale := m.fl.div m.fl.one (m.fl.sqrtf (m.fl.add mean m.rmsEps))
  loop m.perG (fun i y => Function.update y (yg + i)
    (m.fl.mul (m.fl.mul (y (yg + i)) scale) (m.ly.normW (grp * m.perG + i)))) y

def gateNorm (b : Nat) (mem : Buffers F) : Buffers F :=
  { mem with z := loop m.ng (m.groupNorm b) (m.gate b mem.z) }

/-! ## The serial core -/

/-- One token's convolution, on the ring as it stands. -/
def convToken (b : Nat) (mem : Buffers F) : Buffers F :=
  loop m.convDim (fun c mem =>
    { mem with
      aux := Function.update mem.aux (b * m.convDim + c)
        (m.convolved (fun k => mem.conv (k * m.convDim + c)) b c) }) mem

/-- The oldest column leaves the ring, the token's own input enters it. -/
def advanceRing (b : Nat) (mem : Buffers F) : Buffers F :=
  if m.histn = 0 then mem
  else
    let moved := copied mem.conv 0 mem.conv m.convDim ((m.histn - 1) * m.convDim)
    { mem with
      conv := copied moved ((m.histn - 1) * m.convDim) m.qkv (b * m.dInProj + m.inner)
        m.convDim }

def scanToken (b : Nat) (mem : Buffers F) : Buffers F :=
  loop m.nh (fun h => loop m.hd fun p => m.scanRow b h p) mem

def mamba2SsdCoreSerial (n : Nat) (mem : Buffers F) : Buffers F :=
  loop n (fun b mem => m.gateNorm b (m.scanToken b (m.advanceRing b (m.convToken b mem)))) mem

/-! ## The chunked core -/

/-- One token of one channel, the ring read as it was before the call. -/
def convCell (ring : Nat → F) (c b : Nat) (mem : Buffers F) : Buffers F :=
  { mem with
    aux := Function.update mem.aux (b * m.convDim + c)
      (m.convolved (fun k =>
        if m.histn ≤ b + k then m.qkv ((b + k - m.histn) * m.dInProj + m.inner + c)
        else ring ((b + k) * m.convDim + c)) b c) }

/-- The ring after the call, from the last inputs. -/
def ringAfter (n : Nat) (mem : Buffers F) : Buffers F :=
  if m.histn = 0 then mem
  else if m.histn ≤ n then
    { mem with
      conv := loop m.histn (fun r ring => copied ring (r * m.convDim) m.qkv
        ((n - m.histn + r) * m.dInProj + m.inner) m.convDim) mem.conv }
  else
    let moved := copied mem.conv 0 mem.conv (n * m.convDim) ((m.histn - n) * m.convDim)
    { mem with
      conv := loop n (fun r ring => copied ring ((m.histn - n + r) * m.convDim) m.qkv
        (r * m.dInProj + m.inner) m.convDim) moved }

/-- What one head does in the tokens `t0 … t1 - 1`. -/
def scanProgram (t0 t1 : Nat) : List (Nat × Nat) :=
  (List.range' t0 (t1 - t0)).flatMap fun b => (List.range m.hd).map fun p => (b, p)

/-- The order in which the threads of the pool have taken the steps of a call: those of the
convolution by channel, those of the scan by head, for each chunk, those of the norm by
token. -/
structure Schedule where
  conv : List (Nat × Nat)
  scan : Nat → List (Nat × (Nat × Nat))
  norm : List (Nat × Unit)

/-- Each worker runs its lanes in the order of the program. How the lanes of different
threads fall together is open. -/
structure Schedule.Runs (s : Schedule) (n chunk : Nat) : Prop where
  conv : Interleaves m.convDim (fun _ => List.range n) s.conv
  scan : ∀ i, Interleaves m.nh
    (fun _ => m.scanProgram (i * chunk) (min (i * chunk + chunk) n)) (s.scan i)
  norm : Interleaves n (fun _ => [()]) s.norm

def mamba2SsdCoreChunked (s : Schedule) (n chunk : Nat) (mem : Buffers F) : Buffers F :=
  let convDone := run (m.convCell mem.conv) s.conv mem
  let ringDone := m.ringAfter n convDone
  let scanDone := loop ((n + chunk - 1) / chunk)
    (fun i mem => run (fun h bp => m.scanRow bp.1 h bp.2) (s.scan i) mem) ringDone
  run (fun b _ => m.gateNorm b) s.norm scanDone

/-- The largest kernel the buffer of the convolution's workers holds. -/
def ssmMaxConvKernel : Nat := 16

/-- The core `mamba2_ssd_step` picks. -/
def mamba2SsdCore (forceSerial : Bool) (s : Schedule) (n chunk : Nat) (mem : Buffers F) :
    Buffers F :=
  if 1 < n ∧ forceSerial = false ∧ m.convKernel ≤ ssmMaxConvKernel then
    m.mamba2SsdCoreChunked s n chunk mem
  else m.mamba2SsdCoreSerial n mem

end Mixer

end GridcoreRunner.Model
