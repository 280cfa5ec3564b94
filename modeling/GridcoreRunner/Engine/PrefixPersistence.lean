import GridcoreRunner.Engine.PrefixRuns

/-!
# The cache across a restart

What is saved is read back, entry for entry, unless one of them is larger than a load
accepts. A load that fails behind its header clears the cache, and what it linked
before that could be forked while the file was not yet known to be corrupt.
-/

namespace GridcoreRunner.Generation

set_option autoImplicit false

open GridcoreRunner.Gguf

variable {V σ κ Row Fold Logits : Type*}

/-! ## Bytes -/

theorem le_bytes_length (width n : Nat) : (leBytes width n).length = width := by
  induction width generalizing n with
  | zero => rfl
  | succ width induction => rw [leBytes, List.length_cons, induction]

theorem le_bytes_value (width n : Nat) : leNat (leBytes width n) = n % 256 ^ width := by
  induction width generalizing n with
  | zero => rw [Nat.pow_zero, Nat.mod_one]; rfl
  | succ width induction =>
      have split := @Nat.mod_mul 256 (256 ^ width) n
      rw [leBytes, leNat, induction, UInt8.toNat_ofNat', @Nat.pow_succ' 256 width, split]

theorem rd_append {count : Nat} {front : Bytes} (size : front.length = count) (back : Bytes) :
    rd count (front ++ back) = some (front, back) := by
  unfold rd
  rw [if_pos (by rw [List.length_append]; omega), List.take_left' size, List.drop_left' size]

theorem pack_toks_length (toks : List Nat) : (packToks toks).length = 4 * toks.length := by
  induction toks with
  | nil => rfl
  | cons t toks induction =>
      unfold packToks at induction ⊢
      rw [List.flatMap_cons, List.length_append, le_bytes_length, induction, List.length_cons]
      omega

theorem unpack_pack_toks {toks : List Nat} (small : ∀ t ∈ toks, t < 2 ^ 32) :
    unpackToks toks.length (packToks toks) = toks := by
  induction toks with
  | nil => rfl
  | cons t toks induction =>
      have first := small t List.mem_cons_self
      have rest := induction fun u member => small u (List.mem_cons_of_mem _ member)
      unfold packToks at rest ⊢
      rw [List.flatMap_cons, List.length_cons, unpackToks, List.take_left' (le_bytes_length 4 t),
        List.drop_left' (le_bytes_length 4 t), rest, le_bytes_value, Nat.mod_eq_of_lt (by omega)]

theorem unpack_toks_small (n : Nat) (bytes : Bytes) :
    (unpackToks n bytes).length = n ∧ ∀ t ∈ unpackToks n bytes, t < 2 ^ 32 := by
  induction n generalizing bytes with
  | zero => exact ⟨rfl, fun t never => by cases never⟩
  | succ n induction =>
      have rest := induction (bytes.drop 4)
      unfold unpackToks
      refine ⟨by rw [List.length_cons, rest.1], List.forall_mem_cons.mpr ⟨?_, rest.2⟩⟩
      have bound := le_nat_lt (bytes.take 4)
      have short : (bytes.take 4).length ≤ 4 := by
        rw [List.length_take]
        omega
      calc leNat (bytes.take 4) < 256 ^ (bytes.take 4).length := bound
        _ ≤ 256 ^ 4 := Nat.pow_le_pow_right (by omega) short
        _ = 2 ^ 32 := by decide

/-! ## Records -/

/-- A record of the types of its fields: `int32_t` tokens, and sizes that a file can hold. -/
structure Record.Formed (r : Record) : Prop where
  long : pfxMinTokens ≤ r.toks.length
  short : r.toks.length < 2 ^ 31
  toks : ∀ t ∈ r.toks, t < 2 ^ 32
  bytes : r.kv.length < 2 ^ 64

/-- What a load believes of the size of a record. -/
def Record.sized (r : Record) : Bool := decide (0 < r.kv.length) && decide (r.kv.length ≤ 2 ^ 40)

theorem read_write_record {r : Record} (formed : r.Formed) (rest : Bytes) :
    readRecord (writeRecord r ++ rest) = if r.sized then some (r, rest) else none := by
  have count : leNat (leBytes 4 r.toks.length) = r.toks.length := by
    rw [le_bytes_value, Nat.mod_eq_of_lt (formed.short.trans (by decide))]
  have size : leNat (leBytes 8 r.kv.length) = r.kv.length := by
    rw [le_bytes_value, Nat.mod_eq_of_lt (formed.bytes.trans_le (by decide))]
  have key : UInt64.ofNat (leNat (leBytes 8 r.key.toNat)) = r.key := by
    rw [le_bytes_value, Nat.mod_eq_of_lt (r.key.toNat_lt.trans_le (by decide)), UInt64.ofNat_toNat]
  have long := formed.long
  have short := formed.short
  unfold readRecord writeRecord Record.sized
  rw [List.append_assoc, List.append_assoc, List.append_assoc, List.append_assoc,
    rd_append (le_bytes_length 8 _)]
  dsimp only [Option.bind_some]
  rw [rd_append (le_bytes_length 4 _)]
  dsimp only [Option.bind_some]
  rw [rd_append (le_bytes_length 8 _)]
  dsimp only [Option.bind_some]
  rw [count, size]
  by_cases sized : 0 < r.kv.length ∧ r.kv.length ≤ 2 ^ 40
  · rw [if_neg (by omega), decide_eq_true sized.1, decide_eq_true sized.2,
      rd_append (pack_toks_length r.toks)]
    dsimp only [Option.bind_some]
    rw [rd_append rfl, Option.map_some, unpack_pack_toks formed.toks, key]
    rfl
  · rw [if_pos (by omega), if_neg]
    rw [Bool.and_eq_true, decide_eq_true_eq, decide_eq_true_eq]
    exact sized

/-- The records of a file, as far as they can be read. -/
def readRecords : Nat → Bytes → List Record × Option Bytes
  | 0, file => ([], some file)
  | count + 1, file =>
      match readRecord file with
      | none => ([], none)
      | some (r, file) => (r :: (readRecords count file).1, (readRecords count file).2)

theorem load_records_eq (layout : Layout Row Fold) (key : UInt64) (now : Int) (number count : Nat)
    (pfx : Pfx UInt64 Row Fold) (digest : UInt64) (file : Bytes) :
    loadRecords layout key now number count pfx digest file =
      ((readRecords count file).1.foldl (linkRecord layout key now number) pfx,
        (readRecords count file).2.map fun rest =>
          ((readRecords count file).1.foldl digestRecord digest, rest)) := by
  induction count generalizing pfx digest file with
  | zero => rfl
  | succ count induction =>
      unfold loadRecords readRecords
      cases readRecord file with
      | none => rfl
      | some read => exact induction _ _ _

/-! ## What the cache holds -/

/-- An entry as publishing and loading store it under its key's layout. -/
structure Stored (layouts : UInt64 → Layout Row Fold) (p : PfxEntry UInt64 Row Fold) : Prop where
  bytes : p.bytes = entryBytes (layouts p.key).toShape p.toks.length
  rows : p.rows.length = p.toks.length
  long : pfxMinTokens ≤ p.toks.length
  short : p.toks.length < 2 ^ 31
  toks : ∀ t ∈ p.toks, t < 2 ^ 32
  fits : p.bytes < 2 ^ 64

/-- A call with the types of the source: the layout is the key's, tokens and lengths are
`int32_t`, sizes are `size_t`. -/
def CacheCall.Typed (layouts : UInt64 → Layout Row Fold) : CacheCall V σ κ Row Fold Logits → Prop
  | .reuse _ shape key _ _ _ _ => shape = (layouts key).toShape
  | .publish shape key _ _ _ toks => shape = (layouts key).toShape ∧ toks.length < 2 ^ 31 ∧
      (∀ t ∈ toks, t < 2 ^ 32) ∧ ∀ n ≤ toks.length, entryBytes shape n < 2 ^ 64
  | .load layout key _ _ _ => layout = layouts key
  | _ => True

def AllStored (layouts : UInt64 → Layout Row Fold) (pfx : Pfx UInt64 Row Fold) : Prop :=
  ∀ p ∈ pfx.entries, Stored layouts p

variable {layouts : UInt64 → Layout Row Fold}

theorem Stored.touch {p : PfxEntry UInt64 Row Fold} (stored : Stored layouts p) (used : Int)
    (hits : Nat) : Stored layouts { p with used, hits } :=
  ⟨stored.bytes, stored.rows, stored.long, stored.short, stored.toks, stored.fits⟩

theorem AllStored.subset {pfx after : Pfx UInt64 Row Fold} (all : AllStored layouts pfx)
    (fewer : after.entries ⊆ pfx.entries) : AllStored layouts after :=
  fun p member => all p (fewer member)

theorem trim_stored {pfx : Pfx UInt64 Row Fold} (accounts : Books pfx) (all : AllStored layouts pfx)
    (need : Nat) : AllStored layouts (pfxTrimAll need pfx) :=
  all.subset (trim_spec _ need (le_refl _) accounts.total).1.subset

theorem publish_stored {shape : Shape} {key : UInt64} {toks : List Nat}
    {pfx : Pfx UInt64 Row Fold} (accounts : Accounts pfx) (all : AllStored layouts pfx)
    (now : Int) (e : Engine V σ κ Row Fold) (hostFold : Fold) (own : shape = (layouts key).toShape)
    (short : toks.length < 2 ^ 31) (small : ∀ t ∈ toks, t < 2 ^ 32)
    (sizes : ∀ n ≤ toks.length, entryBytes shape n < 2 ^ 64) :
    AllStored layouts (enginePrefixPublish shape key pfx now e hostFold toks) := by
  intro q member
  rcases (publish_entries accounts shape key now e hostFold toks).2 q member with
    ⟨p, inside, same | touched⟩ | ⟨count, long, whole, new⟩
  · rw [same]
    exact all p inside
  · rw [touched]
    exact (all p inside).touch _ _
  · have size : (toks.take count).length = count := List.length_take_of_le whole
    rw [new]
    refine ⟨by rw [own], Causal.cells_length _ _, ?_, ?_, ?_, ?_⟩
    · show pfxMinTokens ≤ (toks.take count).length
      rw [size]
      exact long
    · show (toks.take count).length < 2 ^ 31
      rw [size]
      exact lt_of_le_of_lt whole short
    · intro t member
      exact small t (List.mem_of_mem_take member)
    · show entryBytes shape (toks.take count).length < 2 ^ 64
      rw [size]
      exact sizes count whole

/-- A record as it comes out of a file. -/
theorem read_record_formed {file rest : Bytes} {r : Record} (read : readRecord file = some (r, rest)) :
    r.Formed ∧ r.sized = true := by
  unfold readRecord at read
  rcases Option.bind_eq_some_iff.mp read with ⟨⟨key, file1⟩, _, read⟩
  rcases Option.bind_eq_some_iff.mp read with ⟨⟨n, file2⟩, _, read⟩
  rcases Option.bind_eq_some_iff.mp read with ⟨⟨bytes, file3⟩, _, read⟩
  dsimp only at read
  split at read
  · cases read
  · next good =>
    rcases Option.bind_eq_some_iff.mp read with ⟨⟨toks, file4⟩, _, read⟩
    rcases Option.map_eq_some_iff.mp read with ⟨⟨kv, file5⟩, last, same⟩
    cases same
    have size : kv.length = leNat bytes := by
      unfold rd at last
      split at last
      · next enough =>
        cases last
        exact List.length_take_of_le enough
      · cases last
    have unpacked := unpack_toks_small (leNat n) toks
    unfold Record.sized
    refine ⟨⟨?_, ?_, unpacked.2, ?_⟩, ?_⟩
    · show pfxMinTokens ≤ (unpackToks (leNat n) toks).length
      omega
    · show (unpackToks (leNat n) toks).length < 2 ^ 31
      omega
    · show kv.length < 2 ^ 64
      omega
    · rw [Bool.and_eq_true, decide_eq_true_eq, decide_eq_true_eq, size]
      omega

theorem link_stored {pfx : Pfx UInt64 Row Fold} (books : Books pfx) (all : AllStored layouts pfx)
    (key : UInt64) (now : Int) (number : Nat) {r : Record} (formed : r.Formed) :
    AllStored layouts (linkRecord (layouts key) key now number pfx r) := by
  have trimmed := trim_stored books all r.kv.length
  unfold linkRecord
  dsimp only
  split
  · exact all
  · next own =>
    rw [not_or, not_not, not_not] at own
    split
    · exact trimmed
    · refine List.forall_mem_cons.mpr ⟨?_, trimmed⟩
      refine ⟨?_, (layouts key).unpack_length _ _, formed.long, formed.short, formed.toks,
        formed.bytes⟩
      show r.kv.length = entryBytes (layouts r.key).toShape r.toks.length
      rw [own.1]
      exact own.2

theorem records_formed (count : Nat) (file : Bytes) :
    ∀ r ∈ (readRecords count file).1, r.Formed ∧ r.sized = true := by
  induction count generalizing file with
  | zero =>
      intro r never
      cases never
  | succ count induction =>
      unfold readRecords
      cases read : readRecord file with
      | none =>
          intro r never
          cases never
      | some found =>
          exact List.forall_mem_cons.mpr ⟨read_record_formed read, induction found.2⟩

theorem links_stored {pfx : Pfx UInt64 Row Fold} (accounts : Accounts pfx)
    (all : AllStored layouts pfx) (key : UInt64) (now : Int) (number : Nat) {records : List Record}
    (formed : ∀ r ∈ records, r.Formed) :
    AllStored layouts (records.foldl (linkRecord (layouts key) key now number) pfx) := by
  induction records generalizing pfx with
  | nil => exact all
  | cons r records induction =>
      apply induction (link_record_accounts accounts (layouts key) key now number r)
      · exact link_stored accounts.toBooks all key now number (formed r List.mem_cons_self)
      · exact fun other member => formed other (List.mem_cons_of_mem _ member)

/-- A load that gets behind the header: the records that it reads are linked in turn, and
the file is whole if the digest behind them is theirs. -/
theorem load_eq (layout : Layout Row Fold) (key : UInt64) (now : Int) (number : Nat)
    (pfx : Pfx UInt64 Row Fold) (file : Bytes) : prefixCacheLoad layout key now number pfx file =
      if file.take 16 = pfxMagic ∧ 20 ≤ file.length then
        let read := readRecords (leNat ((file.drop 16).take 4)) (file.drop 20)
        some (read.1.foldl (linkRecord layout key now number) pfx,
          read.2.any fun rest => (rd 8 rest).any fun (want, _) =>
            leNat want == (read.1.foldl digestRecord fnvBasis).toNat)
      else none := by
  unfold prefixCacheLoad
  by_cases long : 16 ≤ file.length
  · rw [show rd 16 file = some (file.take 16, file.drop 16) from if_pos long, Option.bind_some]
    dsimp only
    by_cases magic : file.take 16 = pfxMagic
    · rw [if_neg (not_not.mpr magic)]
      by_cases whole : 20 ≤ file.length
      · have count : rd 4 (file.drop 16) = some ((file.drop 16).take 4, (file.drop 16).drop 4) := by
          apply if_pos
          rw [List.length_drop]
          omega
        rw [if_pos ⟨magic, whole⟩, count, Option.map_some, List.drop_drop]
        dsimp only
        rw [load_records_eq]
        cases (readRecords (leNat ((file.drop 16).take 4)) (file.drop 20)).2 with
        | none => rfl
        | some rest => rfl
      · have count : rd 4 (file.drop 16) = none := by
          apply if_neg
          rw [List.length_drop]
          omega
        rw [if_neg fun both => whole both.2, count]
        rfl
    · rw [if_pos magic, if_neg fun both => magic both.1]
  · rw [show rd 16 file = none from if_neg long, if_neg fun both => long (by omega)]
    rfl

theorem reuse_stored {pfx : Pfx UInt64 Row Fold} (all : AllStored layouts pfx)
    (s : Setup V σ κ Row Fold Logits) (shape : Shape) (key : UInt64) (gpu : Bool) (now : Int)
    (e : Engine V σ κ Row Fold) (toks : List Nat) :
    AllStored layouts (enginePrefixReuse s shape key gpu pfx now e toks).1 := by
  intro q member
  rcases (reuse_entries pfx s shape key gpu now e toks).2 q member with ⟨p, inside, same | touched⟩
  · rw [same]
    exact all p inside
  · rw [touched]
    exact (all p inside).touch _ _

theorem call_stored {pfx : Pfx UInt64 Row Fold} (accounts : Accounts pfx)
    (all : AllStored layouts pfx) {call : CacheCall V σ κ Row Fold Logits} (typed : call.Typed layouts) :
    AllStored layouts (call.run pfx) := by
  cases call with
  | reuse s shape key gpu now e toks => exact reuse_stored all s shape key gpu now e toks
  | publish shape key now e hostFold toks =>
      exact publish_stored accounts all now e hostFold typed.1 typed.2.1 typed.2.2.1 typed.2.2.2
  | configure budget ttl =>
      have books : Books { pfx with budget, ttl } := ⟨accounts.total, accounts.few, accounts.apart⟩
      exact trim_stored books all 0
  | clear =>
      intro p never
      cases never
  | load layout key now number file =>
      have own : layout = layouts key := typed
      rw [own]
      unfold CacheCall.run
      dsimp only
      rw [load_eq]
      split
      · exact links_stored accounts all key now number fun r member =>
          (records_formed _ _ r member).1
      · exact all

/-- The caches that calls of any engines lead to. -/
structure Reached (layouts : UInt64 → Layout Row Fold) (pfx : Pfx UInt64 Row Fold) : Prop where
  accounts : Accounts pfx
  stored : AllStored layouts pfx

theorem run_reached {pfx : Pfx UInt64 Row Fold} (reached : Reached layouts pfx)
    {calls : List (CacheCall V σ κ Row Fold Logits)} (typed : ∀ call ∈ calls, call.Typed layouts) :
    Reached layouts (runCalls pfx calls) := by
  induction calls generalizing pfx with
  | nil => exact reached
  | cons call calls induction =>
      apply induction
      · exact ⟨call_accounts reached.accounts call,
          call_stored reached.accounts reached.stored (typed call List.mem_cons_self)⟩
      · exact fun other member => typed other (List.mem_cons_of_mem _ member)

theorem empty_reached (budget : Nat) (ttl : Int) : Reached layouts (Pfx.empty budget ttl) :=
  ⟨⟨⟨rfl, Nat.zero_le _, List.Pairwise.nil⟩, Nat.zero_le _⟩, fun p never => by cases never⟩

/-! ## The round trip -/

/-- Linking records that fit: each stands in front of those before it. -/
theorem links_all {layout : Layout Row Fold} {key : UInt64} {now : Int} {number : Nat}
    {records : List Record} (own : ∀ r ∈ records, r.key = key ∧
      r.kv.length = entryBytes layout.toShape r.toks.length)
    {pfx : Pfx UInt64 Row Fold} (layouts : UInt64 → Layout Row Fold) (same : layouts key = layout)
    (room : pfx.bytes + (records.map fun r => r.kv.length).sum ≤ pfx.budget)
    (few : pfx.entries.length + records.length ≤ pfxMaxEntries) :
    ((records.foldl (linkRecord layout key now number) pfx).entries.map (PfxEntry.record layouts)) =
      records.reverse ++ pfx.entries.map (PfxEntry.record layouts) := by
  induction records generalizing pfx with
  | nil => rfl
  | cons r records induction =>
      rw [List.map_cons, List.sum_cons] at room
      rw [List.length_cons] at few
      have mine := own r List.mem_cons_self
      have untouched : pfxTrimAll r.kv.length pfx = pfx := by
        unfold pfxTrimAll
        cases size : pfx.entries.length with
        | zero => rfl
        | succ fuel =>
            unfold pfxTrim
            apply if_neg
            rw [Bool.and_eq_true, Bool.or_eq_true, decide_eq_true_eq, decide_eq_true_eq]
            omega
      have linked : linkRecord layout key now number pfx r =
          { pfx with
            entries := { key := r.key, toks := r.toks, rows := (layout.unpack r.toks.length r.kv).1,
                         blob := (layout.unpack r.toks.length r.kv).2, bytes := r.kv.length,
                         used := now, hits := 0, load := some number } :: pfx.entries
            bytes := pfx.bytes + r.kv.length } := by
        unfold linkRecord
        rw [if_neg (by rw [not_or, not_not, not_not]; exact mine), untouched]
        exact if_neg (by omega)
      rw [List.foldl_cons, linked, induction fun other member => own other (List.mem_cons_of_mem _ member)]
      · rw [List.map_cons, List.reverse_cons, List.append_assoc]
        congr 1
        show PfxEntry.record layouts _ :: _ = _
        congr 1
        unfold PfxEntry.record
        rw [mine.1, same, layout.pack_unpack _ _ mine.2, ← mine.1]
      · show pfx.bytes + r.kv.length + _ ≤ pfx.budget
        omega
      · show (pfx.entries.length + 1) + _ ≤ _
        omega

theorem read_records_write {records : List Record} (formed : ∀ r ∈ records, r.Formed) (tail : Bytes) :
    if records.all Record.sized then
      readRecords records.length (records.flatMap writeRecord ++ tail) = (records, some tail)
    else (readRecords records.length (records.flatMap writeRecord ++ tail)).2 = none := by
  induction records with
  | nil => rfl
  | cons r records induction =>
      have rest := induction fun other member => formed other (List.mem_cons_of_mem _ member)
      rw [List.all_cons, List.length_cons, List.flatMap_cons, List.append_assoc]
      unfold readRecords
      rw [read_write_record (formed r List.mem_cons_self)]
      cases sized : r.sized with
      | false => rfl
      | true =>
          rw [Bool.true_and, if_pos rfl]
          dsimp only
          by_cases all : records.all Record.sized = true
          · rw [if_pos all] at rest ⊢
            rw [rest]
          · rw [if_neg all] at rest ⊢
            exact rest

theorem record_of_stored {p : PfxEntry UInt64 Row Fold} (stored : Stored layouts p) :
    (p.record layouts).Formed ∧ (p.record layouts).kv.length = p.bytes := by
  have size : (p.record layouts).kv.length = p.bytes := by
    show ((layouts p.key).pack p.rows p.blob).length = p.bytes
    rw [(layouts p.key).pack_length, stored.rows, stored.bytes]
  refine ⟨⟨stored.long, stored.short, stored.toks, ?_⟩, size⟩
  rw [size]
  exact stored.fits

/-- Loading what was saved restores the tokens and the KV bytes of every entry. -/
def RoundTrips (layouts : UInt64 → Layout Row Fold) (key : UInt64) (pfx : Pfx UInt64 Row Fold)
    (ttl now : Int) (number : Nat) : Prop :=
  ∃ after, prefixCacheLoad (layouts key) key now number (Pfx.empty pfx.budget ttl)
      (prefixCacheSave layouts pfx) = some (after, true) ∧
    ∀ r, r ∈ after.entries.map (PfxEntry.record layouts) ↔ r ∈ pfx.entries.map (PfxEntry.record layouts)

/-- A load accepts no entry that is empty or over 2^40 bytes; all others come back. -/
theorem round_trips_iff {pfx : Pfx UInt64 Row Fold} (reached : Reached layouts pfx) {key : UInt64}
    (own : ∀ p ∈ pfx.entries, p.key = key) (ttl now : Int) (number : Nat) :
    RoundTrips layouts key pfx ttl now number ↔
      ∀ p ∈ pfx.entries, 0 < p.bytes ∧ p.bytes ≤ 2 ^ 40 := by
  have stored := fun p member => record_of_stored (reached.stored p member)
  generalize saved : pfx.entries.map (PfxEntry.record layouts) = records
  have formed : ∀ r ∈ records, r.Formed := by
    intro r member
    rw [← saved] at member
    rcases List.mem_map.mp member with ⟨p, inside, same⟩
    rw [← same]
    exact (stored p inside).1
  have sized : records.all Record.sized = true ↔ ∀ p ∈ pfx.entries, 0 < p.bytes ∧ p.bytes ≤ 2 ^ 40 := by
    rw [← saved, List.all_map, List.all_eq_true]
    apply forall₂_congr
    intro p inside
    unfold Function.comp Record.sized
    rw [(stored p inside).2, Bool.and_eq_true, decide_eq_true_eq, decide_eq_true_eq]
  have few : records.length ≤ pfxMaxEntries := by
    rw [← saved, List.length_map]
    exact reached.accounts.few
  have count : leNat (leBytes 4 records.length) = records.length := by
    rw [le_bytes_value, Nat.mod_eq_of_lt (lt_of_le_of_lt few (by decide))]
  generalize digest : records.foldl digestRecord fnvBasis = last
  have file : prefixCacheSave layouts pfx =
      pfxMagic ++ (leBytes 4 records.length ++ (records.flatMap writeRecord ++ leBytes 8 last.toNat)) := by
    unfold prefixCacheSave
    dsimp only
    rw [saved, digest, List.append_assoc, List.append_assoc]
  have front : (pfxMagic ++ leBytes 4 records.length).length = 20 := by
    rw [List.length_append, le_bytes_length]
    rfl
  have magic : (prefixCacheSave layouts pfx).take 16 = pfxMagic := by
    rw [file]
    exact List.take_left' rfl
  have long : 20 ≤ (prefixCacheSave layouts pfx).length := by
    rw [file, ← List.append_assoc, List.length_append, front]
    omega
  have sixteen : pfxMagic.length = 16 := rfl
  have counted : ((prefixCacheSave layouts pfx).drop 16).take 4 = leBytes 4 records.length := by
    rw [file, List.drop_left' sixteen]
    exact List.take_left' (le_bytes_length 4 _)
  have body : (prefixCacheSave layouts pfx).drop 20 =
      records.flatMap writeRecord ++ leBytes 8 last.toNat := by
    rw [file, ← List.append_assoc, List.drop_left' front]
  have reads := read_records_write formed (leBytes 8 last.toNat)
  have loaded := load_eq (layouts key) key now number (Pfx.empty pfx.budget ttl)
    (prefixCacheSave layouts pfx)
  rw [if_pos ⟨magic, long⟩, counted, count, body] at loaded
  dsimp only at loaded
  unfold RoundTrips
  rw [← sized, loaded, saved]
  by_cases all : records.all Record.sized = true
  · rw [if_pos all] at reads
    rw [reads, Option.any_some, rd, if_pos (by rw [le_bytes_length]), Option.any_some]
    dsimp only
    have trailer : leNat ((leBytes 8 last.toNat).take 8) = last.toNat := by
      rw [List.take_of_length_le (by rw [le_bytes_length]), le_bytes_value,
        Nat.mod_eq_of_lt (last.toNat_lt.trans_le (by decide))]
    rw [trailer, digest]
    have mine : ∀ r ∈ records, r.key = key ∧
        r.kv.length = entryBytes (layouts key).toShape r.toks.length := by
      intro r member
      rw [← saved] at member
      rcases List.mem_map.mp member with ⟨p, inside, same⟩
      rw [← same]
      refine ⟨own p inside, ?_⟩
      rw [(stored p inside).2, (reached.stored p inside).bytes, own p inside]
      rfl
    have bytes : (records.map fun r => r.kv.length).sum = pfx.bytes := by
      rw [reached.accounts.total, ← saved, List.map_map]
      unfold heldBytes
      congr 1
      apply List.map_congr_left
      intro p inside
      exact (stored p inside).2
    have linked := @links_all _ _ (layouts key) key now number records mine
      (Pfx.empty pfx.budget ttl) layouts rfl (by
        rw [bytes]
        show 0 + pfx.bytes ≤ pfx.budget
        rw [Nat.zero_add]
        exact reached.accounts.within) (by
        show 0 + records.length ≤ pfxMaxEntries
        omega)
    refine ⟨fun _ => all, fun _ => ⟨_, by rw [beq_self_eq_true], fun r => ?_⟩⟩
    rw [linked]
    show r ∈ records.reverse ++ [] ↔ _
    rw [List.append_nil, List.mem_reverse]
  · rw [if_neg all] at reads
    rw [reads]
    constructor
    · rintro ⟨after, same, _⟩
      cases same
    · intro yes
      exact absurd yes all

/-! ## A file that fails -/

/-- When a request looks at the cache. -/
def CacheCall.time : CacheCall V σ κ Row Fold Logits → Option Int
  | .reuse _ _ _ _ now _ _ => some now
  | .publish _ _ now _ _ _ => some now
  | _ => none

/-- The time behind requests of other threads from this time on, if they are in order. -/
def requestsUntil : Int → List (CacheCall V σ κ Row Fold Logits) → Option Int
  | since, [] => some since
  | since, call :: rest => call.time.bind fun now => if since ≤ now then requestsUntil now rest else none

/-- At this time or later, behind any requests of others, an engine's
`engine_prefix_reuse` forks from an entry of this load; with recurrent layers it forks
from the whole of it. -/
def ForksFrom (V σ κ Logits : Type*) (recurrent : Bool) (pfx : Pfx UInt64 Row Fold) (since : Int)
    (number : Nat) : Prop :=
  ∃ (calls : List (CacheCall V σ κ Row Fold Logits)) (shape : Shape) (key : UInt64) (t now : Int)
      (toks : List Nat) (index : Nat) (hit : PfxEntry UInt64 Row Fold) (matched : Nat),
    requestsUntil since calls = some t ∧ t ≤ now ∧
      pfxBest shape key toks (pfxExpire (runCalls pfx calls) now).entries 0 none =
        some (index, hit, matched) ∧
      pfxMinTokens ≤ matched ∧ (recurrent = true → matched = hit.toks.length) ∧
        hit.load = some number

/-- A load that fails has let no entry of its file be forked, and keeps what was resident. -/
def LoadSpares (V σ κ Logits : Type*) (recurrent : Bool) (layout : Layout Row Fold) (key : UInt64)
    (now : Int) (number : Nat) (pfx : Pfx UInt64 Row Fold) (file : Bytes) : Prop :=
  ∀ after, prefixCacheLoad layout key now number pfx file = some (after, false) →
    ¬ForksFrom V σ κ Logits recurrent after now number ∧
      ∀ p ∈ pfx.entries, p ∈ (prefixCacheClear after).entries

/-- The records of a file behind its header. -/
def fileRecords (file : Bytes) : List Record × Option Bytes :=
  readRecords (leNat ((file.drop 16).take 4)) (file.drop 20)

/-- Behind the header, the file is cut short or its digest is another. -/
def Corrupt (file : Bytes) : Prop :=
  file.take 16 = pfxMagic ∧ 20 ≤ file.length ∧ ((fileRecords file).2.any fun rest =>
    (rd 8 rest).any fun (want, _) =>
      leNat want == ((fileRecords file).1.foldl digestRecord fnvBasis).toNat) = false

/-- The record is of this model and of the size of its layout. -/
def ownRecord (layout : Layout Row Fold) (key : UInt64) (r : Record) : Bool :=
  decide (r.key = key ∧ r.kv.length = entryBytes layout.toShape r.toks.length)

/-- The last record of this model does not fit into the whole budget, or there is none. -/
def NoneFits (layout : Layout Row Fold) (key : UInt64) (budget : Nat) (records : List Record) : Prop :=
  ∀ r ∈ (records.filter (ownRecord layout key)).getLast?, budget < r.kv.length

theorem link_keeps (layout : Layout Row Fold) (key : UInt64) (now : Int) (number : Nat)
    {pfx : Pfx UInt64 Row Fold} (books : Books pfx) (r : Record) :
    (linkRecord layout key now number pfx r).budget = pfx.budget ∧
      (linkRecord layout key now number pfx r).ttl = pfx.ttl ∧
        ∀ p ∈ (linkRecord layout key now number pfx r).entries,
          p ∈ pfx.entries ∨ p.load = some number ∧ p.used = now := by
  have trimmed := trim_spec _ r.kv.length (le_refl _) books.total
  unfold linkRecord
  dsimp only
  split
  · exact ⟨rfl, rfl, fun p member => Or.inl member⟩
  · split
    · exact ⟨trimmed.2.1, trimmed.2.2.1, fun p member => Or.inl (trimmed.1.subset member)⟩
    · refine ⟨trimmed.2.1, trimmed.2.2.1, List.forall_mem_cons.mpr ⟨Or.inr ⟨rfl, rfl⟩, ?_⟩⟩
      exact fun p member => Or.inl (trimmed.1.subset member)

theorem links_keep {layout : Layout Row Fold} {key : UInt64} {now : Int} {number : Nat}
    {pfx : Pfx UInt64 Row Fold} (accounts : Accounts pfx) (records : List Record) :
    Accounts (records.foldl (linkRecord layout key now number) pfx) ∧
      (records.foldl (linkRecord layout key now number) pfx).budget = pfx.budget ∧
        (records.foldl (linkRecord layout key now number) pfx).ttl = pfx.ttl ∧
          ∀ p ∈ (records.foldl (linkRecord layout key now number) pfx).entries,
            p ∈ pfx.entries ∨ p.load = some number ∧ p.used = now := by
  induction records using List.reverseRecOn with
  | nil => exact ⟨accounts, rfl, rfl, fun p member => Or.inl member⟩
  | append_singleton records r induction =>
      rw [List.foldl_append, List.foldl_cons, List.foldl_nil]
      have step := link_keeps layout key now number induction.1.toBooks r
      refine ⟨link_record_accounts induction.1 layout key now number r,
        step.1.trans induction.2.1, step.2.1.trans induction.2.2.1, fun p member => ?_⟩
      rcases step.2.2 p member with before | here
      · exact induction.2.2.2 p before
      · exact Or.inr here

/-- Into an empty cache nothing of the file is linked in the end just if its last own
record is too large. -/
theorem links_none_iff {layout : Layout Row Fold} {key : UInt64} {now : Int} {number : Nat}
    {pfx : Pfx UInt64 Row Fold} (accounts : Accounts pfx) (nothing : pfx.entries = [])
    (records : List Record) :
    (records.foldl (linkRecord layout key now number) pfx).entries = [] ↔
      NoneFits layout key pfx.budget records := by
  induction records using List.reverseRecOn with
  | nil => exact ⟨(fun _ r never => by cases never), fun _ => nothing⟩
  | append_singleton records r induction =>
      have before := @links_keep _ _ layout key now number pfx accounts records
      rw [List.foldl_append, List.foldl_cons, List.foldl_nil]
      generalize records.foldl (linkRecord layout key now number) pfx = front at before induction
      unfold NoneFits at induction ⊢
      rw [List.filter_append]
      by_cases own : r.key = key ∧ r.kv.length = entryBytes layout.toShape r.toks.length
      · have mine : ownRecord layout key r = true := decide_eq_true own
        rw [List.filter_cons_of_pos mine, List.filter_nil, List.getLast?_concat]
        have trimmed := trim_spec _ r.kv.length (le_refl _) before.1.total
        unfold linkRecord
        rw [if_neg (by rw [not_or, not_not, not_not]; exact own)]
        dsimp only
        rw [show (pfxTrimAll r.kv.length front).budget = pfx.budget from trimmed.2.1.trans before.2.1]
        by_cases large : pfx.budget < r.kv.length
        · rw [if_pos (by omega)]
          refine ⟨fun _ other same => ?_, fun _ => ?_⟩
          · cases same
            exact large
          · rcases trimmed.2.2.2.2 with empty | room
            · exact empty
            · rw [before.2.1] at room
              omega
        · rw [if_neg]
          · constructor
            · intro never
              cases never
            · intro all
              exact absurd (all r rfl) large
          · rcases trimmed.2.2.2.2 with empty | room
            · have none_ : (pfxTrimAll r.kv.length front).bytes = 0 := by
                have total : (pfxTrimAll r.kv.length front).bytes =
                  heldBytes (pfxTrimAll r.kv.length front).entries := trimmed.2.2.2.1
                rw [total, show (pfxTrimAll r.kv.length front).entries = [] from empty]
                rfl
              omega
            · have fits : (pfxTrimAll r.kv.length front).bytes + r.kv.length ≤ pfx.budget := by
                rw [← before.2.1]
                exact room.1
              omega
      · have other : ownRecord layout key r ≠ true := fun yes => own (of_decide_eq_true yes)
        rw [List.filter_cons_of_neg other, List.filter_nil, List.append_nil]
        unfold linkRecord
        rw [if_pos]
        · exact induction
        · by_contra neither
          rw [not_or, not_not, not_not] at neither
          exact own neither

/-- No entry of the load is there, or each is out of date. -/
def Quiet (number : Nat) (t : Int) (pfx : Pfx UInt64 Row Fold) : Prop :=
  (∀ p ∈ pfx.entries, p.load ≠ some number) ∨ pfx.ttl < 0 ∧ ∀ p ∈ pfx.entries, p.used ≤ t

theorem request_quiet {number : Nat} {t now : Int} {pfx : Pfx UInt64 Row Fold}
    (accounts : Accounts pfx) (quiet : Quiet number t pfx) {call : CacheCall V σ κ Row Fold Logits}
    (time : call.time = some now) (later : t ≤ now) : Quiet number now (call.run pfx) := by
  have sources : (call.run pfx).ttl = pfx.ttl ∧ ∀ q ∈ (call.run pfx).entries,
      (∃ p ∈ pfx.entries, q.load = p.load ∧ (q.used = p.used ∨ q.used = now)) ∨
        q.load = none ∧ q.used = now := by
    cases call with
    | reuse s shape key gpu moment e toks =>
        cases time
        have behind := reuse_entries pfx s shape key gpu now e toks
        refine ⟨behind.1, fun q member => Or.inl ?_⟩
        rcases behind.2 q member with ⟨p, inside, same | forked⟩
        · exact ⟨p, inside, by rw [same], Or.inl (by rw [same])⟩
        · exact ⟨p, inside, by rw [forked], Or.inr (by rw [forked])⟩
    | publish shape key moment e hostFold toks =>
        cases time
        have behind := publish_entries accounts shape key now e hostFold toks
        refine ⟨behind.1, fun q member => ?_⟩
        rcases behind.2 q member with ⟨p, inside, same | touched⟩ | ⟨count, _, _, new⟩
        · exact Or.inl ⟨p, inside, by rw [same], Or.inl (by rw [same])⟩
        · exact Or.inl ⟨p, inside, by rw [touched], Or.inr (by rw [touched])⟩
        · exact Or.inr ⟨by rw [new], by rw [new]⟩
    | configure budget ttl => cases time
    | clear => cases time
    | load layout key moment other file => cases time
  rcases quiet with absent | ⟨expires, old⟩
  · refine Or.inl fun q member => ?_
    rcases sources.2 q member with ⟨p, inside, load, _⟩ | ⟨load, _⟩
    · rw [load]
      exact absent p inside
    · rw [load]
      exact Option.some_ne_none number |>.symm
  · refine Or.inr ⟨by rw [sources.1]; exact expires, fun q member => ?_⟩
    rcases sources.2 q member with ⟨p, inside, _, same | fresh⟩ | ⟨_, fresh⟩
    · rw [same]
      exact (old p inside).trans later
    · exact le_of_eq fresh
    · exact le_of_eq fresh

theorem requests_quiet {number : Nat} {t until_ : Int} {pfx : Pfx UInt64 Row Fold}
    (accounts : Accounts pfx) (quiet : Quiet number t pfx) {calls : List (CacheCall V σ κ Row Fold Logits)}
    (times : requestsUntil t calls = some until_) : Quiet number until_ (runCalls pfx calls) := by
  induction calls generalizing pfx t with
  | nil =>
      cases times
      exact quiet
  | cons call calls induction =>
      unfold requestsUntil at times
      rcases Option.bind_eq_some_iff.mp times with ⟨now, time, rest⟩
      split at rest
      · next later =>
        exact induction (call_accounts accounts call) (request_quiet accounts quiet time later) rest
      · cases rest

theorem quiet_unforked {recurrent : Bool} {number : Nat} {since : Int} {pfx : Pfx UInt64 Row Fold}
    (accounts : Accounts pfx) (quiet : Quiet number since pfx) :
    ¬ForksFrom V σ κ Logits recurrent pfx since number := by
  rintro ⟨calls, shape, key, t, now, toks, index, hit, matched, times, later, found, _, _, load⟩
  rcases best_hit shape key toks (pfxExpire (runCalls pfx calls) now).entries 0 none with
    ⟨none_, _⟩ | ⟨best, same, inner⟩
  · rw [none_] at found
    cases found
  · rw [found] at same
    cases same
    rcases inner.place with ⟨offset, _, there, _⟩
    have inside := List.mem_filter.mp (List.mem_of_getElem? there)
    rcases requests_quiet accounts quiet times with absent | ⟨expires, old⟩
    · exact absent hit inside.1 load
    · have age := old hit inside.1
      have alive := inside.2
      rw [decide_eq_true (show now - hit.used > (runCalls pfx calls).ttl by omega)] at alive
      cases alive

/-- What lies first in a cache without older entries can be forked while it lives. -/
theorem forks_head {recurrent : Bool} {pfx : Pfx UInt64 Row Fold} {now : Int} {number : Nat}
    (stored : AllStored layouts pfx) (alive : 0 ≤ pfx.ttl)
    (own : ∀ p ∈ pfx.entries, p.load = some number ∧ p.used = now) (some_ : pfx.entries ≠ []) :
    ForksFrom V σ κ Logits recurrent pfx now number := by
  have kept : (pfxExpire pfx now).entries = pfx.entries := by
    apply List.filter_eq_self.mpr
    intro p member
    rw [(own p member).2, sub_self, decide_eq_false (not_lt.mpr alive)]
    rfl
  cases first : pfx.entries with
  | nil => exact absurd first some_
  | cons p rest =>
      have mine := stored p (by rw [first]; exact List.mem_cons_self)
      have usable : Usable (layouts p.key).toShape p.key p := ⟨rfl, mine.bytes⟩
      have front : (p.toks ++ [0]).take ((p.toks ++ [0]).length - 1) = p.toks := by
        rw [List.length_append]
        exact List.take_left' rfl
      have whole : matchLength (p.toks ++ [0]) p = p.toks.length := by
        unfold matchLength
        rw [front]
        apply Nat.le_antisymm (common_prefix_le _ _).1
        exact (le_common_iff _ _ _).mpr ⟨le_refl _, le_refl _, rfl⟩
      rcases best_hit (layouts p.key).toShape p.key (p.toks ++ [0]) (p :: rest) 0 none with
        ⟨_, least⟩ | ⟨⟨index, hit, matched⟩, found, inner⟩
      · have long := mine.long
        have short := least p List.mem_cons_self usable
        rw [whole] at short
        exact absurd (long.trans short) (Nat.not_succ_le_zero 15)
      · have long := inner.longest p List.mem_cons_self usable
        have bound : matched ≤ p.toks.length := by
          rw [show matched = _ from inner.matched]
          unfold matchLength
          rw [front]
          exact (common_prefix_le _ _).2
        rw [whole] at long
        have same : hit = p := by
          rcases inner.place with ⟨offset, _, there, earliest⟩
          cases offset with
          | zero =>
              cases there
              rfl
          | succ offset =>
              have less := earliest 0 (Nat.succ_pos _) p rfl usable
              rw [whole] at less
              exact absurd bound (not_le.mpr less)
        refine ⟨[], (layouts p.key).toShape, p.key, now, now, p.toks ++ [0], index, hit, matched, rfl,
          le_refl _, ?_, ?_, fun _ => ?_, ?_⟩
        · show pfxBest _ _ _ (pfxExpire pfx now).entries 0 none = _
          rw [kept, first]
          exact found
        · exact mine.long.trans long
        · rw [same]
          exact Nat.le_antisymm bound long
        · rw [same]
          exact (own p (by rw [first]; exact List.mem_cons_self)).1

/-- Only where nothing was resident, and nothing of the file can be forked, a corrupt file
does no harm. -/
theorem load_spares_iff (recurrent : Bool) {pfx : Pfx UInt64 Row Fold} (reached : Reached layouts pfx)
    (key : UInt64) (now : Int) (number : Nat) (file : Bytes) :
    LoadSpares V σ κ Logits recurrent (layouts key) key now number pfx file ↔
      ¬Corrupt file ∨ pfx.entries = [] ∧
        (pfx.ttl < 0 ∨ NoneFits (layouts key) key pfx.budget (fileRecords file).1) := by
  unfold LoadSpares
  rw [load_eq]
  by_cases header : file.take 16 = pfxMagic ∧ 20 ≤ file.length
  · rw [if_pos header]
    dsimp only
    rw [show readRecords (leNat ((file.drop 16).take 4)) (file.drop 20) = fileRecords file from rfl]
    have linked := @links_keep _ _ (layouts key) key now number pfx reached.accounts (fileRecords file).1
    have formed : ∀ r ∈ (fileRecords file).1, r.Formed ∧ r.sized = true := records_formed _ _
    have stored := links_stored reached.accounts reached.stored key now number
      fun r member => (formed r member).1
    by_cases corrupt : Corrupt file
    · rw [corrupt.2.2]
      constructor
      · intro spares
        rcases spares _ rfl with ⟨unforked, kept⟩
        have nothing : pfx.entries = [] := by
          apply List.eq_nil_iff_forall_not_mem.mpr
          intro p member
          cases kept p member
        refine Or.inr ⟨nothing, ?_⟩
        by_contra neither
        rw [not_or, not_lt] at neither
        apply unforked
        apply forks_head stored
        · rw [linked.2.2.1]
          exact neither.1
        · intro p member
          rcases linked.2.2.2 p member with before | here
          · rw [nothing] at before
            cases before
          · exact here
        · exact fun none_ => neither.2 ((links_none_iff reached.accounts nothing _).mp none_)
      · rintro (whole | ⟨nothing, harmless⟩)
        · exact absurd corrupt whole
        · intro after same
          cases same
          rw [nothing]
          refine ⟨quiet_unforked linked.1 ?_, fun p never => by cases never⟩
          rcases harmless with expired | none_
          · refine Or.inr ⟨by rw [linked.2.2.1]; exact expired, fun p member => ?_⟩
            rcases linked.2.2.2 p member with before | here
            · rw [nothing] at before
              cases before
            · exact le_of_eq here.2
          · refine Or.inl fun p member => ?_
            rw [(links_none_iff reached.accounts nothing _).mpr none_] at member
            cases member
    · have whole : ((fileRecords file).2.any fun rest => (rd 8 rest).any fun (want, _) =>
          leNat want == ((fileRecords file).1.foldl digestRecord fnvBasis).toNat) ≠ false :=
        fun cut => corrupt ⟨header.1, header.2, cut⟩
      refine ⟨fun _ => Or.inl corrupt, fun _ after same => ?_⟩
      exact absurd (congrArg Prod.snd (Option.some.inj same)) whole
  · rw [if_neg header]
    refine ⟨fun _ => Or.inl fun corrupt => header ⟨corrupt.1, corrupt.2.1⟩, fun _ after never => ?_⟩
    cases never

/-- The cache across a restart, for the caches that any calls lead to. -/
theorem snapshot_file_iff (budget : Nat) (ttl : Int) {calls : List (CacheCall V σ κ Row Fold Logits)}
    (typed : ∀ call ∈ calls, call.Typed layouts) (recurrent : Bool) (key : UInt64) (now : Int)
    (number : Nat) :
    ((∀ p ∈ (runCalls (Pfx.empty budget ttl) calls).entries, p.key = key) →
        (RoundTrips layouts key (runCalls (Pfx.empty budget ttl) calls) ttl now number ↔
          ∀ p ∈ (runCalls (Pfx.empty budget ttl) calls).entries, 0 < p.bytes ∧ p.bytes ≤ 2 ^ 40)) ∧
      ∀ file, LoadSpares V σ κ Logits recurrent (layouts key) key now number
          (runCalls (Pfx.empty budget ttl) calls) file ↔
        ¬Corrupt file ∨ (runCalls (Pfx.empty budget ttl) calls).entries = [] ∧
          ((runCalls (Pfx.empty budget ttl) calls).ttl < 0 ∨ NoneFits (layouts key) key
            (runCalls (Pfx.empty budget ttl) calls).budget (fileRecords file).1) := by
  have reached := run_reached (empty_reached budget ttl) typed
  exact ⟨fun own => round_trips_iff reached own ttl now number,
    fun file => load_spares_iff recurrent reached key now number file⟩

/-! ## One entry -/

/-- A layout of one byte a token. -/
def byteLayout : Layout UInt8 Unit where
  rowBytes := 1
  blobBytes := 0
  pack := fun rows _ => rows
  unpack := fun n kv => ((List.range n).map fun i => kv.getD i 0, ())
  pack_length := fun rows _ => (Nat.mul_one rows.length).symm
  unpack_length := fun n kv => by rw [List.length_map, List.length_range]
  pack_unpack := fun n kv size => by
    have long : kv.length = n := size.trans (Nat.mul_one n)
    apply List.ext_getElem
    · rw [List.length_map, List.length_range, long]
    · intro i _ inside
      rw [List.getElem_map, List.getElem_range, List.getD_eq_getElem _ _ inside]

/-- A saved cache of one entry, and a run that loads it. -/
def warmRecord : Record := { key := 7, toks := List.replicate 16 3, kv := List.replicate 16 1 }

def warmFile : Bytes :=
  pfxMagic ++ leBytes 4 1 ++ writeRecord warmRecord ++ leBytes 8 (digestRecord fnvBasis warmRecord).toNat

def warmRun : List (CacheCall Unit Unit Unit UInt8 Unit Unit) := [.load byteLayout 7 0 0 warmFile]

/-- Behind the header, a record is promised that does not come. -/
def cutFile : Bytes := pfxMagic ++ leBytes 4 1

theorem warm_records : (fileRecords warmFile).1 = [warmRecord] := by
  have formed : ∀ r ∈ [warmRecord], r.Formed := by
    intro r member
    rw [List.mem_singleton.mp member]
    exact ⟨by decide, by decide, by decide, by decide⟩
  have reads := read_records_write formed (leBytes 8 (digestRecord fnvBasis warmRecord).toNat)
  rw [if_pos (by decide)] at reads
  have body : warmFile.drop 20 =
      [warmRecord].flatMap writeRecord ++ leBytes 8 (digestRecord fnvBasis warmRecord).toNat := by
    unfold warmFile
    rw [List.append_assoc, List.drop_left' (by decide), List.flatMap_singleton]
  have count : leNat ((warmFile.drop 16).take 4) = [warmRecord].length := by
    unfold warmFile
    rw [List.append_assoc, List.append_assoc, List.drop_left' (by decide),
      List.take_left' (by decide)]
    decide
  unfold fileRecords
  rw [count, body, reads]

theorem warm_entries : (runCalls (Pfx.empty 64 600) warmRun).entries =
    [{ key := 7, toks := List.replicate 16 3, rows := List.replicate 16 1, blob := (), bytes := 16,
       used := 0, hits := 0, load := some 0 }] := by
  have header : warmFile.take 16 = pfxMagic ∧ 20 ≤ warmFile.length := by
    unfold warmFile
    have sixteen : pfxMagic.length = 16 := rfl
    rw [List.append_assoc, List.append_assoc]
    refine ⟨List.take_left' sixteen, ?_⟩
    rw [List.length_append, List.length_append, le_bytes_length]
    omega
  have loaded : runCalls (Pfx.empty 64 600) warmRun =
      ((prefixCacheLoad byteLayout 7 0 0 (Pfx.empty 64 600) warmFile).map Prod.fst).getD
        (Pfx.empty 64 600) := by
    simp only [runCalls, warmRun, List.foldl_cons, List.foldl_nil, CacheCall.run]
  rw [loaded, load_eq, if_pos header]
  dsimp only
  rw [show readRecords (leNat ((warmFile.drop 16).take 4)) (warmFile.drop 20) = fileRecords warmFile
    from rfl, warm_records]
  rfl

theorem warm_typed : ∀ call ∈ warmRun, call.Typed fun _ => byteLayout := by
  intro call member
  rw [List.mem_singleton.mp member]
  rfl

theorem cut_file_corrupt : Corrupt cutFile := ⟨by decide, by decide, by decide⟩

/-- The cache of one entry comes back from its file, and a file that is cut short before its
first record does nothing to an empty cache. -/
theorem warm_cache_returns :
    RoundTrips (fun _ => byteLayout) 7 (runCalls (Pfx.empty 64 600) warmRun) 600 1 1 ∧
      Corrupt cutFile ∧
      LoadSpares Unit Unit Unit Unit false byteLayout 7 1 1 (Pfx.empty 64 600) cutFile := by
  refine ⟨?_, cut_file_corrupt, ?_⟩
  · apply ((snapshot_file_iff 64 600 warm_typed false 7 1 1).1 ?_).mpr
    · rw [warm_entries]
      decide
    · rw [warm_entries]
      decide
  · have none_ : ∀ call ∈ ([] : List (CacheCall Unit Unit Unit UInt8 Unit Unit)),
        call.Typed fun _ => byteLayout := fun call never => by cases never
    apply ((snapshot_file_iff 64 600 none_ false 7 1 1).2 cutFile).mpr
    right
    refine ⟨rfl, Or.inr fun r last => ?_⟩
    have nothing : (fileRecords cutFile).1 = [] := by decide
    rw [nothing] at last
    cases last

/-- The resident entry is gone when a file is cut short. -/
theorem cut_file_clears :
    ¬LoadSpares Unit Unit Unit Unit false byteLayout 7 1 1 (runCalls (Pfx.empty 64 600) warmRun)
      cutFile := by
  intro spares
  have reached := run_reached (empty_reached 64 600) warm_typed
  rcases (load_spares_iff false reached 7 1 1 cutFile).mp spares with whole | ⟨nothing, _⟩
  · exact whole cut_file_corrupt
  · rw [warm_entries] at nothing
    cases nothing

end GridcoreRunner.Generation
