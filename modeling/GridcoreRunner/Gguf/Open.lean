import GridcoreRunner.Decimal
import GridcoreRunner.Gguf.Bounds
import Mathlib.Data.List.Sort

/-!
# Opening a GGUF file

A mapped file is parsed, its keys and tensor names are checked for duplicates, and every
tensor is placed in the data section: in the mapping, or on paper when only the header is
there. A split model is opened part by part and its tensors merged.
-/

namespace GridcoreRunner.Gguf

open GridcoreRunner.Reader

set_option autoImplicit false

def ascii (s : String) : Bytes := s.toList.map fun c => UInt8.ofNat c.toNat

/-- A pointer into one of the mappings of a file. -/
structure Pointer where
  part : Nat
  pos : Nat
  deriving Repr, DecidableEq

structure Tensor where
  name : Bytes
  type : Nat
  nDims : Nat
  ne : List Nat
  data : Option Pointer
  nbytes : Nat
  deriving Repr, DecidableEq

structure GgufFile where
  maps : List Bytes
  mappedSize : Nat
  version : Nat
  kv : List Kv
  tensors : List Tensor
  headerOnly : Bool
  dataBytes : Nat
  deriving Repr, DecidableEq

/-! ## Typed access to the metadata -/

def ggufGet (kv : List Kv) (key : Bytes) : Option Kv := kv.find? fun pair => cstr pair.key == key

def Kv.u32 (pair : Kv) (dflt : Nat) : Nat :=
  match pair.value with
  | .u64 v => if v ≤ uint32Max then v else dflt
  | .i64 v => if 0 ≤ v ∧ v ≤ uint32Max then v.toNat else dflt
  | .f64 raw =>
      match if pair.type = .f32 then wholeFloat 8 23 raw else wholeFloat 11 52 raw with
      | some n => if n ≤ uint32Max then n else dflt
      | none => dflt
  | _ => dflt

def ggufGetU32 (kv : List Kv) (key : Bytes) (dflt : Nat) : Nat :=
  match ggufGet kv key with
  | none => dflt
  | some pair => pair.u32 dflt

def ggufGetStr (kv : List Kv) (key : Bytes) : Option Bytes :=
  match ggufGet kv key with
  | some ⟨_, _, .str s⟩ => some (cstr s)
  | _ => none

/-- The bytes of an array at this place, or `none` for a read past the array. -/
def arrayRead (bytes : Bytes) (pos n : Nat) : Option Bytes :=
  if pos + n ≤ bytes.length then some ((bytes.drop pos).take n) else none

def nonNegative (v : Int) (dflt : Nat) : Nat := if 0 ≤ v then v.toNat else dflt

/-- One element of a packed array; the outer option is the read. -/
def element (arrType : ValType) (bytes : Bytes) (idx dflt : Nat) : Option Nat :=
  match arrType with
  | .u8 => (arrayRead bytes idx 1).map leNat
  | .i8 => (arrayRead bytes idx 1).map fun raw => nonNegative (toSigned 8 (leNat raw)) dflt
  | .u16 => (arrayRead bytes (idx * 2) 2).map leNat
  | .i16 => (arrayRead bytes (idx * 2) 2).map fun raw => nonNegative (toSigned 16 (leNat raw)) dflt
  | .u32 => (arrayRead bytes (idx * 4) 4).map leNat
  | .i32 => (arrayRead bytes (idx * 4) 4).map fun raw => nonNegative (toSigned 32 (leNat raw)) dflt
  | .u64 => (arrayRead bytes (idx * 8) 8).map fun raw =>
      if leNat raw ≤ uint32Max then leNat raw else dflt
  | .i64 => (arrayRead bytes (idx * 8) 8).map fun raw =>
      if 0 ≤ toSigned 64 (leNat raw) ∧ toSigned 64 (leNat raw) ≤ uint32Max then
        (toSigned 64 (leNat raw)).toNat
      else dflt
  | _ => some dflt

def ggufGetU32Idx (kv : List Kv) (key : Bytes) (idx dflt : Nat) : Option Nat :=
  match ggufGet kv key with
  | none => some dflt
  | some pair =>
      match pair.value with
      | .arrRaw arrType arrN _ bytes =>
          if idx ≥ arrN then some dflt else element arrType bytes idx dflt
      | .arrStr _ => some dflt
      | _ => some (ggufGetU32 kv key dflt)

/-! ## Duplicate names -/

def adjacentDuplicate : List Bytes → Option Bytes
  | a :: b :: rest => if a = b then some b else adjacentDuplicate (b :: rest)
  | _ => none

def firstDuplicate (names : List Bytes) : Option Bytes :=
  adjacentDuplicate (names.insertionSort fun a b => a ≤ b)

/-! ## Placing the tensors -/

def Descriptor.dim (t : Descriptor) (i : Nat) : Nat := t.ne.getD i 1

/-- The bytes of a tensor of a supported type, if its dimensions can be right. -/
def Descriptor.byteCount (t : Descriptor) : Option Nat :=
  if t.dim 0 = 0 ∨ t.dim 0 > intMax ∨ t.dim 0 % ggmlBlockSize t.type ≠ 0 ∨
      t.dim 1 = 0 ∨ t.dim 1 > intMax ∨ t.dim 2 = 0 ∨ t.dim 2 > intMax ∨
      t.dim 3 = 0 ∨ t.dim 3 > intMax then none
  else do
    let rows ← checkedU64Mul (t.dim 1) (t.dim 2)
    let rows ← checkedU64Mul rows (t.dim 3)
    let rowBlocks := t.dim 0 / ggmlBlockSize t.type
    let rowBytes ← checkedU64Mul rowBlocks (ggmlTypeSize t.type)
    checkedU64Mul rowBytes rows

def Descriptor.tensor (t : Descriptor) (data : Option Pointer) (nbytes : Nat) : Tensor :=
  { name := t.name, type := t.type, nDims := t.nDims, ne := t.ne, data := data, nbytes := nbytes }

/-- One turn of the loop over the tensors, and the data bytes the header asks for so far. -/
def placeTensor (mapSize dataStart : Nat) (headerOnly : Bool) (dataBytes : Nat) (t : Descriptor) :
    Option (Tensor × Nat) :=
  if !ggmlTypeSupported t.type then some (t.tensor none 0, dataBytes)
  else do
    let nbytes ← t.byteCount
    if headerOnly then
      let ends ← checkedU64Add t.off nbytes
      some (t.tensor none nbytes, if ends > dataBytes then ends else dataBytes)
    else if t.off > mapSize - dataStart ∨ nbytes > mapSize - dataStart - t.off then none
    else some (t.tensor (some { part := 0, pos := dataStart + t.off }) nbytes, dataBytes)

def placeTensors (mapSize dataStart : Nat) (headerOnly : Bool) :
    Nat → List Descriptor → Option (List Tensor × Nat)
  | dataBytes, [] => some ([], dataBytes)
  | dataBytes, t :: rest => do
      let placed ← placeTensor mapSize dataStart headerOnly dataBytes t
      let others ← placeTensors mapSize dataStart headerOnly placed.2 rest
      some (placed.1 :: others.1, others.2)

/-! ## One file -/

def alignmentOf (kv : List Kv) : Nat :=
  let align := ggufGetU32 kv (ascii "general.alignment") 32
  if pow2 align then align else 32

/-- Where the tensor data starts, if rounding up does not overflow. -/
def dataStartOf (kv : List Kv) (headerEnd : Nat) : Option Nat := do
  let alignedEnd ← checkedU64Add headerEnd (alignmentOf kv - 1)
  some (roundDown (alignmentOf kv) alignedEnd)

/-- The whole file, or what the whole file would be. -/
def mappedSizeOf (mapSize dataStart : Nat) (headerOnly : Bool) (dataBytes : Nat) : Option Nat :=
  if headerOnly then checkedU64Add dataStart dataBytes else some mapSize

def fileOf (map : Bytes) (headerOnly : Bool) (h : Header) (placed : List Tensor × Nat)
    (mappedSize : Nat) : GgufFile where
  maps := [map]
  mappedSize := mappedSize
  version := h.version
  kv := h.kv
  tensors := placed.1
  headerOnly := headerOnly
  dataBytes := placed.2

def ggufOpenOneX (map : Bytes) (headerOnly : Bool) : Option GgufFile :=
  if map.length < 24 then none
  else
    match rdHeader map Cursor.start with
    | (none, _) => none
    | (some h, c) =>
        if (firstDuplicate (h.kv.map fun pair => cstr pair.key)).isSome then none
        else if (firstDuplicate (h.tensors.map Descriptor.name)).isSome then none
        else do
          let dataStart ← dataStartOf h.kv c.pos
          if dataStart > map.length then none
          else do
            let placed ← placeTensors map.length dataStart headerOnly 0 h.tensors
            let mappedSize ← mappedSizeOf map.length dataStart headerOnly placed.2
            some (fileOf map headerOnly h placed mappedSize)

def ggufOpenOne (map : Bytes) : Option GgufFile := ggufOpenOneX map false

def ggufOpenHeader (map : Bytes) : Option GgufFile := ggufOpenOneX map true

/-! ## Split files -/

/-- `%05u`. -/
def pad5 (n : Nat) : Bytes :=
  List.replicate (5 - (Decimal.ofNat n).length) 48 ++ Decimal.ofNat n

def splitSuffix (current count : Nat) : Bytes :=
  ascii "-" ++ pad5 (current + 1) ++ ascii "-of-" ++ pad5 count ++ ascii ".gguf"

def splitPartPath (path : Bytes) (current count wanted : Nat) : Option Bytes :=
  let suffix := splitSuffix current count
  if path.length < suffix.length ∨ path.drop (path.length - suffix.length) ≠ suffix then none
  else
    let out := path.take (path.length - suffix.length) ++ splitSuffix wanted count
    if out.length < 4096 then some out else none

def splitNo (kv : List Kv) : Nat := ggufGetU32 kv (ascii "split.no") uint32Max

def splitCount (kv : List Kv) : Nat := ggufGetU32 kv (ascii "split.count") 0

def splitTensors (kv : List Kv) : Nat := ggufGetU32 kv (ascii "split.tensors.count") uint32Max

/-- Whether part `i` goes with the first part and the tensors counted so far. -/
def consistent (head part : GgufFile) (i count expected total mapped mapSize : Nat) : Bool :=
  part.version == head.version &&
    (ggufGetStr head.kv (ascii "general.architecture")).isSome &&
    (ggufGetStr part.kv (ascii "general.architecture")).isSome &&
    ggufGetStr head.kv (ascii "general.architecture") ==
      ggufGetStr part.kv (ascii "general.architecture") &&
    ggufGetU32 head.kv (ascii "general.alignment") 32 ==
      ggufGetU32 part.kv (ascii "general.alignment") 32 &&
    splitNo part.kv == i && splitCount part.kv == count && splitTensors part.kv == expected &&
    decide (part.tensors.length ≤ expected) &&
    decide (total ≤ expected - part.tensors.length) &&
    decide (mapped ≤ uint64Max - mapSize)

/-- The loop over the parts: those opened so far, their tensors and their mapped bytes. -/
def openParts (disk : Bytes → Option Bytes) (first : Bytes) (count expected : Nat) :
    Nat → Nat → List GgufFile → Nat → Nat → Option (List GgufFile × Nat)
  | 0, _, parts, total, mapped => if total = expected then some (parts, mapped) else none
  | left + 1, i, parts, total, mapped => do
      let path ← splitPartPath first 0 count i
      let map ← disk path
      let part ← ggufOpenOne map
      if consistent (parts.headD part) part i count expected total mapped map.length then
        openParts disk first count expected left (i + 1) (parts ++ [part])
          (total + part.tensors.length) (mapped + map.length)
      else none

def Tensor.inPart (part : Nat) (t : Tensor) : Tensor :=
  { t with data := t.data.map fun pointer => { pointer with part := part } }

/-- The tensors of all parts in order, each pointing into the mapping of its own part. -/
def mergedTensors (parts : List GgufFile) : List Tensor :=
  (parts.zipIdx.map fun part => part.1.tensors.map (Tensor.inPart part.2)).flatten

def ggufOpen (disk : Bytes → Option Bytes) (path : Bytes) : Option GgufFile := do
  let map ← disk path
  let probe ← ggufOpenOne map
  let count := splitCount probe.kv
  if count ≤ 1 then some probe
  else
    let current := splitNo probe.kv
    let expected := splitTensors probe.kv
    if current ≥ count ∨ expected = uint32Max ∨ expected > 100000 ∨ count > expected ∨
        count > 10000 then none
    else do
      let first ← splitPartPath path current count 0
      let opened ← openParts disk first count expected count 0 [] 0 0
      let head ← opened.1.head?
      if (firstDuplicate ((mergedTensors opened.1).map Tensor.name)).isSome then none
      else
        some { head with
          maps := opened.1.flatMap GgufFile.maps
          mappedSize := opened.2
          tensors := mergedTensors opened.1
        }

end GridcoreRunner.Gguf
