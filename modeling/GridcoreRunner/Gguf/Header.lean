import GridcoreRunner.Reader
import GridcoreRunner.Gguf.Types

/-!
# The header of a GGUF file

The metadata pairs and the tensor descriptors as the cursor reads them. A failed read
answers zero and is noticed later; a string, a value or a descriptor that cannot be right
ends the parse.
-/

namespace GridcoreRunner.Gguf

open GridcoreRunner.Reader
open GridcoreRunner.Reader.Parser

set_option autoImplicit false

/-- The live member of the value union. A scalar array is a pointer into the mapping. -/
inductive Value where
  | u64 (v : Nat)
  | i64 (v : Int)
  | f64 (raw : Nat)
  | b (v : Bool)
  | str (s : Bytes)
  | arrRaw (arrType : ValType) (arrN start : Nat) (bytes : Bytes)
  | arrStr (strings : List Bytes)
  deriving Repr, DecidableEq

structure Kv where
  key : Bytes
  type : ValType
  value : Value
  deriving Repr, DecidableEq

/-- A tensor as the header declares it. -/
structure Descriptor where
  name : Bytes
  type : Nat
  nDims : Nat
  ne : List Nat
  off : Nat
  deriving Repr, DecidableEq

structure Header where
  version : Nat
  kv : List Kv
  tensors : List Descriptor
  deriving Repr, DecidableEq

def nameSize : Nat := 128

def rdUInt (size : Nat) : Parser Nat := do
  let read ← rd size
  pure ((read.map leNat).getD 0)

def rdU8 : Parser Nat := rdUInt 1

def rdU16 : Parser Nat := rdUInt 2

def rdU32 : Parser Nat := rdUInt 4

def rdU64 : Parser Nat := rdUInt 8

/-- `need` and the copy of the bytes, or the step over them. -/
def take (n : Nat) : Parser Bytes := do
  ofOption (← rd n)

def rdStr : Parser Bytes := do
  let n ← rdU64
  require (n ≤ uint64Max - 1)
  take n

/-- What a scalar case ends with. -/
def whenGood (value : Value) : Parser Value := do
  if ← good then pure value else fail

/-- A packed array stays in the mapping. -/
def rdPacked (arrType : ValType) (arrN : Nat) : Parser Value := do
  require (arrN ≤ uint64Max / scalarSize arrType)
  let start ← position
  let bytes ← take (scalarSize arrType * arrN)
  whenGood (.arrRaw arrType arrN start bytes)

def rdElements (arrType : ValType) (arrN : Nat) : Parser Value :=
  match arrType with
  | .arr => fail
  | .str => do
      let strings ← timesWithin rdStr 8 arrN
      whenGood (.arrStr strings)
  | arrType => rdPacked arrType arrN

def rdArray : Parser Value := do
  let code ← rdU32
  let arrN ← rdU64
  let arrType ← ofOption (ValType.ofCode code)
  rdElements arrType arrN

def rdKvValue : ValType → Parser Value
  | .u8 => do whenGood (.u64 (← rdU8))
  | .i8 => do whenGood (.i64 (toSigned 8 (← rdU8)))
  | .u16 => do whenGood (.u64 (← rdU16))
  | .i16 => do whenGood (.i64 (toSigned 16 (← rdU16)))
  | .u32 => do whenGood (.u64 (← rdU32))
  | .i32 => do whenGood (.i64 (toSigned 32 (← rdU32)))
  | .f32 => do whenGood (.f64 (← rdU32))
  | .bool => do whenGood (.b ((← rdU8) != 0))
  | .u64 => do whenGood (.u64 (← rdU64))
  | .i64 => do whenGood (.i64 (toSigned 64 (← rdU64)))
  | .f64 => do whenGood (.f64 (← rdU64))
  | .str => do pure (.str (← rdStr))
  | .arr => rdArray

def rdKv : Parser Kv := do
  let key ← rdStr
  let code ← rdU32
  let type ← ofOption (ValType.ofCode code)
  let value ← rdKvValue type
  pure { key := key, type := type, value := value }

def rdTensor : Parser Descriptor := do
  let name ← rdStr
  require (name.length < nameSize)
  let nDims ← rdU32
  require (nDims ≠ 0 ∧ nDims ≤ 4)
  let dims ← times rdU64 nDims
  let type ← rdU32
  let off ← rdU64
  pure {
    name := cstr name
    type := type
    nDims := nDims
    ne := dims ++ List.replicate (4 - nDims) 1
    off := off
  }

def rdHeader : Parser Header := do
  let magic ← rdU32
  require (magic = 0x46554747)
  let version ← rdU32
  require (2 ≤ version ∧ version ≤ 3)
  let nTensors ← rdU64
  let nKv ← rdU64
  require (nTensors ≤ 100000 ∧ nKv ≤ 100000)
  let kv ← times rdKv nKv
  let tensors ← times rdTensor nTensors
  require ((← good) = true)
  pure { version := version, kv := kv, tensors := tensors }

/-! ## The parser reads through the cursor only -/

theorem lawful_rdUInt (size : Nat) : Lawful (rdUInt size) :=
  (lawful_rd size).bind fun _ => lawful_pure _

theorem lawful_take (n : Nat) : Lawful (take n) :=
  (lawful_rd n).bind fun read => lawful_ofOption read

theorem lawful_rdStr : Lawful rdStr := by
  apply (lawful_rdUInt 8).bind
  intro n
  apply (lawful_require _).bind
  intro _
  exact lawful_take n

theorem lawful_whenGood (value : Value) : Lawful (whenGood value) := by
  apply lawful_good.bind
  intro fine
  exact (lawful_pure value).ite lawful_fail

theorem lawful_scalar (size : Nat) (value : Nat → Value) :
    Lawful (rdUInt size >>= fun n => whenGood (value n)) :=
  (lawful_rdUInt size).bind fun n => lawful_whenGood (value n)

/-- A string takes the eight bytes of its length. -/
theorem rd_str_gains : Gains rdStr 8 := by
  have counted : Gains rdU64 8 := (gains_rd 8).bind fun read => lawful_pure _
  apply counted.bind
  intro n
  exact (lawful_require _).bind fun _ => lawful_take n

theorem lawful_rdPacked (arrType : ValType) (arrN : Nat) : Lawful (rdPacked arrType arrN) := by
  apply (lawful_require _).bind
  intro _
  apply lawful_position.bind
  intro start
  apply (lawful_take _).bind
  intro bytes
  exact lawful_whenGood _

theorem lawful_rdElements (arrType : ValType) (arrN : Nat) :
    Lawful (rdElements arrType arrN) := by
  cases arrType with
  | arr => exact lawful_fail
  | str =>
      exact (lawful_rdStr.timesWithin (by decide) rd_str_gains arrN).bind
        fun strings => lawful_whenGood _
  | _ => exact lawful_rdPacked _ arrN

theorem lawful_rdArray : Lawful rdArray := by
  apply (lawful_rdUInt 4).bind
  intro code
  apply (lawful_rdUInt 8).bind
  intro arrN
  apply (lawful_ofOption _).bind
  intro arrType
  exact lawful_rdElements arrType arrN

theorem lawful_rdKvValue (type : ValType) : Lawful (rdKvValue type) := by
  cases type with
  | str => exact lawful_rdStr.bind fun s => lawful_pure _
  | arr => exact lawful_rdArray
  | _ => exact lawful_scalar _ _

theorem lawful_rdKv : Lawful rdKv := by
  apply lawful_rdStr.bind
  intro key
  apply (lawful_rdUInt 4).bind
  intro code
  apply (lawful_ofOption _).bind
  intro type
  exact (lawful_rdKvValue type).bind fun value => lawful_pure _

theorem lawful_rdTensor : Lawful rdTensor := by
  apply lawful_rdStr.bind
  intro name
  apply (lawful_require _).bind
  intro _
  apply (lawful_rdUInt 4).bind
  intro nDims
  apply (lawful_require _).bind
  intro _
  apply ((lawful_rdUInt 8).times nDims).bind
  intro dims
  apply (lawful_rdUInt 4).bind
  intro type
  apply (lawful_rdUInt 8).bind
  intro off
  exact lawful_pure _

theorem lawful_rdHeader : Lawful rdHeader := by
  apply (lawful_rdUInt 4).bind
  intro magic
  apply (lawful_require _).bind
  intro _
  apply (lawful_rdUInt 4).bind
  intro version
  apply (lawful_require _).bind
  intro _
  apply (lawful_rdUInt 8).bind
  intro nTensors
  apply (lawful_rdUInt 8).bind
  intro nKv
  apply (lawful_require _).bind
  intro _
  apply (lawful_rdKv.times nKv).bind
  intro kv
  apply (lawful_rdTensor.times nTensors).bind
  intro tensors
  apply lawful_good.bind
  intro fine
  apply (lawful_require _).bind
  intro _
  exact lawful_pure _

end GridcoreRunner.Gguf
