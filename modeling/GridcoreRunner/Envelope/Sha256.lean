import GridcoreRunner.BlockHash

/-!
# SHA-256 of a file

`sha256_update` takes the file in whatever pieces `fread` gives and keeps the bytes of the block
that is not yet full; `sha256_final` pads. The standard's digest is stated beside it: the
message is padded as a whole and its blocks are compressed one after the other.
-/

namespace GridcoreRunner.Envelope

set_option autoImplicit false

open BlockHash

abbrev Bytes := List UInt8

/-- The eight words of `h`. -/
structure Words where
  a : UInt32
  b : UInt32
  c : UInt32
  d : UInt32
  e : UInt32
  f : UInt32
  g : UInt32
  hh : UInt32
  deriving DecidableEq, Repr

/-- `sha256_ctx`: the bytes buffered are the first `n` of `buf`. -/
structure Sha256Ctx where
  h : Words
  len : UInt64
  buf : Bytes

def shaRotr (x : UInt32) (n : UInt32) : UInt32 := (x >>> n) ||| (x <<< (32 - n))

def iv : Words :=
  ⟨0x6a09e667, 0xbb67ae85, 0x3c6ef372, 0xa54ff53a, 0x510e527f, 0x9b05688c, 0x1f83d9ab,
    0x5be0cd19⟩

def roundConstants : List UInt32 :=
  [0x428a2f98, 0x71374491, 0xb5c0fbcf, 0xe9b5dba5, 0x3956c25b, 0x59f111f1,
    0x923f82a4, 0xab1c5ed5, 0xd807aa98, 0x12835b01, 0x243185be, 0x550c7dc3,
    0x72be5d74, 0x80deb1fe, 0x9bdc06a7, 0xc19bf174, 0xe49b69c1, 0xefbe4786,
    0x0fc19dc6, 0x240ca1cc, 0x2de92c6f, 0x4a7484aa, 0x5cb0a9dc, 0x76f988da,
    0x983e5152, 0xa831c66d, 0xb00327c8, 0xbf597fc7, 0xc6e00bf3, 0xd5a79147,
    0x06ca6351, 0x14292967, 0x27b70a85, 0x2e1b2138, 0x4d2c6dfc, 0x53380d13,
    0x650a7354, 0x766a0abb, 0x81c2c92e, 0x92722c85, 0xa2bfe8a1, 0xa81a664b,
    0xc24b8b70, 0xc76c51a3, 0xd192e819, 0xd6990624, 0xf40e3585, 0x106aa070,
    0x19a4c116, 0x1e376c08, 0x2748774c, 0x34b0bcb5, 0x391c0cb3, 0x4ed8aa4a,
    0x5b9cca4f, 0x682e6ff3, 0x748f82ee, 0x78a5636f, 0x84c87814, 0x8cc70208,
    0x90befffa, 0xa4506ceb, 0xbef9a3f7, 0xc67178f2]

/-- Four bytes, the highest first. -/
def word (p : Bytes) (i : Nat) : UInt32 :=
  (p.getD (i * 4) 0).toUInt32 <<< 24 ||| (p.getD (i * 4 + 1) 0).toUInt32 <<< 16 |||
    (p.getD (i * 4 + 2) 0).toUInt32 <<< 8 ||| (p.getD (i * 4 + 3) 0).toUInt32

/-- The word that comes next in `w`. -/
def nextWord (w : List UInt32) : UInt32 :=
  let i := w.length
  let x := w.getD (i - 15) 0
  let y := w.getD (i - 2) 0
  let s0 := shaRotr x 7 ^^^ shaRotr x 18 ^^^ (x >>> 3)
  let s1 := shaRotr y 17 ^^^ shaRotr y 19 ^^^ (y >>> 10)
  w.getD (i - 16) 0 + s0 + w.getD (i - 7) 0 + s1

def schedule (p : Bytes) : List UInt32 :=
  (List.range 48).foldl (fun w _ => w ++ [nextWord w]) ((List.range 16).map (word p))

def round (v : Words) (kw : UInt32 × UInt32) : Words :=
  let s1 := shaRotr v.e 6 ^^^ shaRotr v.e 11 ^^^ shaRotr v.e 25
  let ch := (v.e &&& v.f) ^^^ (~~~v.e &&& v.g)
  let t1 := v.hh + s1 + ch + kw.1 + kw.2
  let s0 := shaRotr v.a 2 ^^^ shaRotr v.a 13 ^^^ shaRotr v.a 22
  let maj := (v.a &&& v.b) ^^^ (v.a &&& v.c) ^^^ (v.b &&& v.c)
  let t2 := s0 + maj
  ⟨t1 + t2, v.a, v.b, v.c, v.d + t1, v.e, v.f, v.g⟩

def sha256Block (h : Words) (p : Bytes) : Words :=
  let v := (roundConstants.zip (schedule p)).foldl round h
  ⟨h.a + v.a, h.b + v.b, h.c + v.c, h.d + v.d, h.e + v.e, h.f + v.f, h.g + v.g, h.hh + v.hh⟩

def sha256Init : Sha256Ctx := ⟨iv, 0, []⟩

/-- The loop of `sha256_update`; every round takes a byte at least. -/
def updateLoop : Nat → Sha256Ctx → Bytes → Sha256Ctx
  | 0, c, _ => c
  | rounds + 1, c, p =>
      if p = [] then c
      else
        let take := min (64 - c.buf.length) p.length
        let buf := c.buf ++ p.take take
        if buf.length = 64 then
          updateLoop rounds { c with h := sha256Block c.h buf, buf := [] } (p.drop take)
        else updateLoop rounds { c with buf := buf } (p.drop take)

def sha256Update (c : Sha256Ctx) (p : Bytes) : Sha256Ctx :=
  updateLoop p.length { c with len := c.len + p.length.toUInt64 } p

/-- `while (c->n != 56)`: no more than a block of zeros is needed. -/
def padLoop : Nat → Sha256Ctx → Sha256Ctx
  | 0, c => c
  | rounds + 1, c => if c.buf.length = 56 then c else padLoop rounds (sha256Update c [0])

/-- Eight bytes, the highest first. -/
def lengthBytes (bits : UInt64) : Bytes :=
  (List.range 8).map fun i => (bits >>> (56 - i * 8).toUInt64).toUInt8

def wordBytes (x : UInt32) : Bytes :=
  [(x >>> 24).toUInt8, (x >>> 16).toUInt8, (x >>> 8).toUInt8, x.toUInt8]

def Words.bytes (h : Words) : Bytes :=
  wordBytes h.a ++ wordBytes h.b ++ wordBytes h.c ++ wordBytes h.d ++ wordBytes h.e ++
    wordBytes h.f ++ wordBytes h.g ++ wordBytes h.hh

def sha256Final (c : Sha256Ctx) : Bytes :=
  let bits := c.len * 8
  let padded := padLoop 64 (sha256Update c [0x80])
  (sha256Update padded (lengthBytes bits)).h.bytes

def hexDigit (d : UInt8) : UInt8 := if d < 10 then 0x30 + d else 0x61 + (d - 10)

/-- What `envelope_file_sha256` writes for a file that `fread` gives in these pieces. -/
def envelopeFileSha256 (reads : List Bytes) : Bytes :=
  (sha256Final (reads.foldl sha256Update sha256Init)).flatMap fun d : UInt8 =>
    [hexDigit (d >>> 4), hexDigit (d &&& 15)]

/-! ## The standard -/

/-- A message with a one bit, as many zeros as it takes, and its length in bits. -/
def padded (message : Bytes) : Bytes :=
  message ++ [0x80] ++ List.replicate ((119 - message.length % 64) % 64) 0 ++
    lengthBytes (message.length.toUInt64 * 8)

def sha256 (message : Bytes) : Bytes := (digest 64 sha256Block iv (padded message)).bytes

/-! ## The one is the other -/

/-- A context as the absorber of blocks it is. -/
def Sha256Ctx.absorber (c : Sha256Ctx) : Absorber Words UInt8 := ⟨c.h, c.buf⟩

theorem update_loop_absorbs {rounds : Nat} {c : Sha256Ctx} {p : Bytes} (room : c.buf.length < 64)
    (enough : p.length ≤ rounds) :
    (updateLoop rounds c p).absorber = absorb 64 sha256Block c.absorber p ∧
      (updateLoop rounds c p).len = c.len ∧ (updateLoop rounds c p).buf.length < 64 := by
  induction rounds generalizing c p with
  | zero =>
      have none' : p = [] := List.length_eq_zero_iff.mp (Nat.le_zero.mp enough)
      rw [none']
      exact ⟨rfl, rfl, room⟩
  | succ rounds induction =>
      unfold updateLoop
      by_cases none' : p = []
      · rw [if_pos none', none']
        exact ⟨rfl, rfl, room⟩
      · rw [if_neg none']
        have some' : 0 < p.length := List.length_pos_iff.mpr none'
        have split := List.take_append_drop (min (64 - c.buf.length) p.length) p
        have taken : (p.take (min (64 - c.buf.length) p.length)).length =
            min (64 - c.buf.length) p.length := by
          rw [List.length_take]
          omega
        have left : (p.drop (min (64 - c.buf.length) p.length)).length ≤ rounds := by
          rw [List.length_drop]
          omega
        have step : absorb 64 sha256Block c.absorber p =
            absorb 64 sha256Block (absorb 64 sha256Block c.absorber
              (p.take (min (64 - c.buf.length) p.length)))
              (p.drop (min (64 - c.buf.length) p.length)) := by
          rw [← absorb_append, split]
        simp only
        by_cases full : (c.buf ++ p.take (min (64 - c.buf.length) p.length)).length = 64
        · rw [if_pos full]
          have block : absorb 64 sha256Block c.absorber
              (p.take (min (64 - c.buf.length) p.length)) =
                ⟨sha256Block c.h (c.buf ++ p.take (min (64 - c.buf.length) p.length)), []⟩ := by
            apply absorb_full
            · intro nothing
              rw [nothing, List.length_nil] at taken
              omega
            · rw [List.length_append] at full
              exact full
          rw [step, block]
          exact induction (by simp) left
        · rw [if_neg full]
          rw [List.length_append] at full
          have below : c.buf.length + (p.take (min (64 - c.buf.length) p.length)).length < 64 := by
            omega
          have short : absorb 64 sha256Block c.absorber
              (p.take (min (64 - c.buf.length) p.length)) =
                ⟨c.h, c.buf ++ p.take (min (64 - c.buf.length) p.length)⟩ :=
            absorb_short below
          rw [step, short]
          apply induction _ left
          rw [List.length_append]
          exact below

theorem update_absorbs {c : Sha256Ctx} (room : c.buf.length < 64) (p : Bytes) :
    (sha256Update c p).absorber = absorb 64 sha256Block c.absorber p ∧
      (sha256Update c p).len = c.len + p.length.toUInt64 ∧
      (sha256Update c p).buf.length < 64 :=
  update_loop_absorbs (c := { c with len := c.len + p.length.toUInt64 }) room (Nat.le_refl _)

/-- The pieces of a file come to the file. -/
theorem updates_absorb {c : Sha256Ctx} (room : c.buf.length < 64) (reads : List Bytes) :
    (reads.foldl sha256Update c).absorber = absorb 64 sha256Block c.absorber reads.flatten ∧
      (reads.foldl sha256Update c).len = c.len + reads.flatten.length.toUInt64 ∧
      (reads.foldl sha256Update c).buf.length < 64 := by
  induction reads generalizing c with
  | nil =>
      refine ⟨rfl, ?_, room⟩
      exact (UInt64.add_zero c.len).symm
  | cons piece reads induction =>
      obtain ⟨first, len, still⟩ := update_absorbs room piece
      obtain ⟨rest, total, below⟩ := induction still
      rw [List.foldl_cons, List.flatten_cons, absorb_append, ← first]
      refine ⟨rest, ?_, below⟩
      rw [total, len, List.length_append, UInt64.add_assoc]
      congr 1
      exact (UInt64.ofNat_add _ _).symm

/-- What is kept after one more byte. -/
theorem kept_after_one {c : Sha256Ctx} (room : c.buf.length < 64) (b : UInt8) :
    (sha256Update c [b]).buf.length = (c.buf.length + 1) % 64 := by
  obtain ⟨one, _, _⟩ := update_absorbs room [b]
  have kept := congrArg (fun a => a.kept.length) one
  simp only [Sha256Ctx.absorber, absorb, List.foldl_cons, List.foldl_nil, push,
    List.length_append, List.length_singleton] at kept
  by_cases full : c.buf.length + 1 = 64
  · rw [if_pos full] at kept
    rw [kept, full]
    rfl
  · rw [if_neg full] at kept
    simp only [List.length_append, List.length_singleton] at kept
    rw [kept, Nat.mod_eq_of_lt (by omega)]

/-- The zeros: as many as there is room for before the length, in this block or the next. -/
theorem pad_loop_zeros {rounds : Nat} {c : Sha256Ctx} (room : c.buf.length < 64)
    (enough : (120 - c.buf.length) % 64 ≤ rounds) :
    (padLoop rounds c).absorber = absorb 64 sha256Block c.absorber
        (List.replicate ((120 - c.buf.length) % 64) 0) ∧
      (padLoop rounds c).buf.length = 56 := by
  induction rounds generalizing c with
  | zero =>
      have at' : (120 - c.buf.length) % 64 = 0 := by omega
      rw [at']
      refine ⟨rfl, ?_⟩
      unfold padLoop
      omega
  | succ rounds induction =>
      unfold padLoop
      by_cases there : c.buf.length = 56
      · rw [if_pos there, there]
        exact ⟨rfl, rfl⟩
      · rw [if_neg there]
        obtain ⟨zero, _, below⟩ := update_absorbs room [0]
        have next := kept_after_one room 0
        have fewer : (120 - c.buf.length) % 64 =
            (120 - (sha256Update c [0]).buf.length) % 64 + 1 := by
          rw [next]
          omega
        obtain ⟨zeros, done⟩ := induction below (by omega)
        refine ⟨?_, done⟩
        rw [zeros, zero, ← absorb_append, fewer, List.replicate_succ, List.singleton_append]

/-- What is kept after the pieces of a file. -/
theorem updates_kept (reads : List Bytes) :
    (reads.foldl sha256Update sha256Init).buf.length = reads.flatten.length % 64 := by
  obtain ⟨absorbed, _, _⟩ := @updates_absorb sha256Init (by decide) reads
  have whole := @absorb_all _ _ 64 sha256Block (by decide) iv reads.flatten
  have kept := congrArg (fun a => a.kept.length) (absorbed.trans whole)
  simp only [Sha256Ctx.absorber, List.length_drop] at kept
  have split := Nat.div_add_mod reads.flatten.length 64
  omega

/-- Whatever pieces `fread` gives the file in, `envelope_file_sha256` writes the standard's
digest of the file, in hexadecimal. -/
theorem file_hash_is_sha256 (reads : List Bytes) :
    envelopeFileSha256 reads = (sha256 reads.flatten).flatMap fun d : UInt8 =>
      [hexDigit (d >>> 4), hexDigit (d &&& 15)] := by
  obtain ⟨absorbed, len, room⟩ := @updates_absorb sha256Init (by decide) reads
  have kept := updates_kept reads
  obtain ⟨one, _, below⟩ := update_absorbs room [0x80]
  have after := kept_after_one room 0x80
  obtain ⟨zeros, there⟩ := @pad_loop_zeros 64 _ below (by omega)
  obtain ⟨last, _, _⟩ := @update_absorbs
    (padLoop 64 (sha256Update (reads.foldl sha256Update sha256Init) [0x80])) (by omega)
    (lengthBytes ((reads.foldl sha256Update sha256Init).len * 8))
  have start : sha256Init.len = 0 := rfl
  have short : (120 - (sha256Update (reads.foldl sha256Update sha256Init) [0x80]).buf.length) % 64 =
      (119 - reads.flatten.length % 64) % 64 := by
    rw [after, kept]
    omega
  have all : (sha256Update (padLoop 64 (sha256Update (reads.foldl sha256Update sha256Init) [0x80]))
      (lengthBytes ((reads.foldl sha256Update sha256Init).len * 8))).absorber =
        absorb 64 sha256Block ⟨iv, []⟩ (padded reads.flatten) := by
    unfold padded
    rw [last, zeros, one, absorbed, ← absorb_append, ← absorb_append, ← absorb_append, short, len,
      start, UInt64.zero_add, List.append_assoc, List.append_assoc]
    rfl
  have digested := congrArg Absorber.state
    (all.trans (@absorb_all _ _ 64 sha256Block (by decide) iv (padded reads.flatten)))
  unfold envelopeFileSha256 sha256Final sha256
  exact congrArg (fun h : Words => h.bytes.flatMap fun d : UInt8 =>
    [hexDigit (d >>> 4), hexDigit (d &&& 15)]) digested

example : sha256 [0x61, 0x62, 0x63] =
    [0xba, 0x78, 0x16, 0xbf, 0x8f, 0x01, 0xcf, 0xea, 0x41, 0x41, 0x40, 0xde, 0x5d, 0xae, 0x22,
      0x23, 0xb0, 0x03, 0x61, 0xa3, 0x96, 0x17, 0x7a, 0x9c, 0xb4, 0x10, 0xff, 0x61, 0xf2, 0x00,
      0x15, 0xad] := by
  decide +kernel

end GridcoreRunner.Envelope
