import GridcoreRunner.Engine.PrefixCache
import GridcoreRunner.Gguf.Types

/-!
# The snapshot file of the prefix cache

A file is a magic, a count, the records and a digest. A load links each record that is
its model's own into the live cache while the lock is held; whether the digest fits is
known behind the last of them, and a file that does not clears the cache in a second
critical section.
-/

namespace GridcoreRunner.Generation

set_option autoImplicit false

open GridcoreRunner.Gguf

variable {Row Fold : Type*}

/-- How a snapshot of one model lies in memory: `prefix_cache_entry_bytes`, `pfx_save`. -/
structure Layout (Row Fold : Type*) extends Shape where
  pack : List Row → Fold → Bytes
  unpack : Nat → Bytes → List Row × Fold
  pack_length : ∀ rows blob, (pack rows blob).length = entryBytes toShape rows.length
  unpack_length : ∀ n kv, (unpack n kv).1.length = n
  pack_unpack : ∀ n kv, kv.length = entryBytes toShape n → pack (unpack n kv).1 (unpack n kv).2 = kv

/-- `PFX_MAGIC`: `runner.prefix.v1`. -/
def pfxMagic : Bytes :=
  [0x72, 0x75, 0x6e, 0x6e, 0x65, 0x72, 0x2e, 0x70, 0x72, 0x65, 0x66, 0x69, 0x78, 0x2e, 0x76, 0x31]

def fnvPrime : UInt64 := 0x100000001b3
def fnvBasis : UInt64 := 0xcbf29ce484222325

def pfxDigest (bytes : Bytes) : UInt64 := bytes.foldl (fun h b => (h ^^^ b.toUInt64) * fnvPrime) fnvBasis

/-- A little-endian number of this many bytes. -/
def leBytes : Nat → Nat → Bytes
  | 0, _ => []
  | width + 1, n => UInt8.ofNat n :: leBytes width (n / 256)

/-- What the file holds of an entry. -/
structure Record where
  key : UInt64
  toks : List Nat
  kv : Bytes

def packToks (toks : List Nat) : Bytes := toks.flatMap (leBytes 4)

def unpackToks : Nat → Bytes → List Nat
  | 0, _ => []
  | n + 1, bytes => leNat (bytes.take 4) :: unpackToks n (bytes.drop 4)

/-- The digest with the key, the tokens and the KV bytes of one more record. -/
def digestRecord (digest : UInt64) (r : Record) : UInt64 :=
  let digest := (digest ^^^ pfxDigest (leBytes 8 r.key.toNat)) * fnvPrime
  let digest := (digest ^^^ pfxDigest (packToks r.toks)) * fnvPrime
  (digest ^^^ pfxDigest r.kv) * fnvPrime

/-! ## Save -/

def PfxEntry.record (layouts : UInt64 → Layout Row Fold) (p : PfxEntry UInt64 Row Fold) : Record :=
  { key := p.key, toks := p.toks, kv := (layouts p.key).pack p.rows p.blob }

def writeRecord (r : Record) : Bytes :=
  leBytes 8 r.key.toNat ++ leBytes 4 r.toks.length ++ leBytes 8 r.kv.length ++ packToks r.toks ++ r.kv

/-- `prefix_cache_save`: what stands in the file. -/
def prefixCacheSave (layouts : UInt64 → Layout Row Fold) (pfx : Pfx UInt64 Row Fold) : Bytes :=
  let records := pfx.entries.map (PfxEntry.record layouts)
  pfxMagic ++ leBytes 4 records.length ++ records.flatMap writeRecord ++
    leBytes 8 (records.foldl digestRecord fnvBasis).toNat

/-! ## Load -/

/-- `rd`. -/
def rd (count : Nat) (file : Bytes) : Option (Bytes × Bytes) :=
  if count ≤ file.length then some (file.take count, file.drop count) else none

/-- One record, or `bad`. The number of tokens is signed. -/
def readRecord (file : Bytes) : Option (Record × Bytes) :=
  (rd 8 file).bind fun (key, file) =>
    (rd 4 file).bind fun (n, file) =>
      (rd 8 file).bind fun (bytes, file) =>
        if leNat n < pfxMinTokens ∨ 2 ^ 31 ≤ leNat n ∨ leNat bytes = 0 ∨ 2 ^ 40 < leNat bytes then none
        else
          (rd (4 * leNat n) file).bind fun (toks, file) =>
            (rd (leNat bytes) file).map fun (kv, file) =>
              ({ key := UInt64.ofNat (leNat key), toks := unpackToks (leNat n) toks, kv }, file)

/-- A record that is not refused is linked if `pfx_trim` makes room for it. -/
def linkRecord (layout : Layout Row Fold) (key : UInt64) (now : Int) (load : Nat)
    (pfx : Pfx UInt64 Row Fold) (r : Record) : Pfx UInt64 Row Fold :=
  if r.key ≠ key ∨ r.kv.length ≠ entryBytes layout.toShape r.toks.length then pfx
  else
    let pfx := pfxTrimAll r.kv.length pfx
    if pfx.bytes + r.kv.length > pfx.budget then pfx
    else
      { pfx with
        entries := { key := r.key, toks := r.toks, rows := (layout.unpack r.toks.length r.kv).1,
                     blob := (layout.unpack r.toks.length r.kv).2, bytes := r.kv.length,
                     used := now, hits := 0, load := some load } :: pfx.entries
        bytes := pfx.bytes + r.kv.length }

/-- The loop over the records: the cache, and the digest with the bytes behind the last
record unless one was bad. -/
def loadRecords (layout : Layout Row Fold) (key : UInt64) (now : Int) (load : Nat) :
    Nat → Pfx UInt64 Row Fold → UInt64 → Bytes → Pfx UInt64 Row Fold × Option (UInt64 × Bytes)
  | 0, pfx, digest, file => (pfx, some (digest, file))
  | count + 1, pfx, digest, file =>
      match readRecord file with
      | none => (pfx, none)
      | some (r, file) =>
          loadRecords layout key now load count (linkRecord layout key now load pfx r)
            (digestRecord digest r) file

/-- `prefix_cache_load` up to its `unlock`: nothing for a file that it refuses before it
takes the lock, else the cache and whether the file is whole. -/
def prefixCacheLoad (layout : Layout Row Fold) (key : UInt64) (now : Int) (load : Nat)
    (pfx : Pfx UInt64 Row Fold) (file : Bytes) : Option (Pfx UInt64 Row Fold × Bool) :=
  (rd 16 file).bind fun (magic, file) =>
    if magic ≠ pfxMagic then none
    else
      (rd 4 file).map fun (count, file) =>
        match loadRecords layout key now load (leNat count) pfx fnvBasis file with
        | (pfx, none) => (pfx, false)
        | (pfx, some (digest, file)) =>
            (pfx, (rd 8 file).any fun (want, _) => leNat want == digest.toNat)

end GridcoreRunner.Generation
