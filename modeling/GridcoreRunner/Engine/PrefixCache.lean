import GridcoreRunner.Engine.State

/-!
# The shared KV prefix cache

A snapshot keeps the tokens it was taken over, their cache rows and, for a model
with recurrent layers, one fold blob. Times are ticks of an integer clock;
statistics that decide nothing are left out.
-/

namespace GridcoreRunner.Generation

set_option autoImplicit false

open GridcoreRunner.Causal

variable {Key V σ κ Row Fold Logits : Type*}

/-- `PFX_MIN_TOKENS` and `PFX_MAX_ENTRIES`. -/
def pfxMinTokens : Nat := 16
def pfxMaxEntries : Nat := 64

/-- Bytes of one cached token and of one fold blob (zero without recurrent layers). -/
structure Shape where
  rowBytes : Nat
  blobBytes : Nat

/-- `prefix_cache_entry_bytes`. -/
def entryBytes (shape : Shape) (n : Nat) : Nat := n * shape.rowBytes + shape.blobBytes

/-- `pfx_entry`; which load read it from a file, if any did, is kept for the statements. -/
structure PfxEntry (Key Row Fold : Type*) where
  key : Key
  toks : List Nat
  rows : List Row
  blob : Fold
  bytes : Nat
  used : Int
  hits : Nat
  load : Option Nat := none

structure Pfx (Key Row Fold : Type*) where
  entries : List (PfxEntry Key Row Fold)
  bytes : Nat
  budget : Nat
  ttl : Int

def commonPrefix : List Nat → List Nat → Nat
  | x :: xs, y :: ys => if x = y then commonPrefix xs ys + 1 else 0
  | _, _ => 0

def pfxExpire (pfx : Pfx Key Row Fold) (now : Int) : Pfx Key Row Fold :=
  let dead := pfx.entries.filter fun p => decide (now - p.used > pfx.ttl)
  { pfx with
    entries := pfx.entries.filter fun p => !decide (now - p.used > pfx.ttl)
    bytes := pfx.bytes - (dead.map (·.bytes)).sum }

/-- The least recently used entry of one class, as an index. -/
def pfxOldest (proven : Bool) : List (PfxEntry Key Row Fold) → Nat → Option (Nat × Int) →
    Option (Nat × Int)
  | [], _, best => best
  | p :: rest, index, best =>
      if decide (p.hits > 0) != proven then pfxOldest proven rest (index + 1) best
      else
        match best with
        | none => pfxOldest proven rest (index + 1) (some (index, p.used))
        | some (_, used) =>
            if p.used < used then pfxOldest proven rest (index + 1) (some (index, p.used))
            else pfxOldest proven rest (index + 1) best

/-- `pfx_trim`: unproven entries go first, least recently used first. -/
def pfxTrim : Nat → Nat → Pfx Key Row Fold → Pfx Key Row Fold
  | 0, _, pfx => pfx
  | fuel + 1, need, pfx =>
      if !pfx.entries.isEmpty &&
          (decide (pfx.bytes + need > pfx.budget) || decide (pfx.entries.length ≥ pfxMaxEntries)) then
        match (pfxOldest false pfx.entries 0 none).or (pfxOldest true pfx.entries 0 none) with
        | none => pfx
        | some (victim, _) =>
            pfxTrim fuel need { pfx with
              entries := pfx.entries.eraseIdx victim
              bytes := pfx.bytes - ((pfx.entries[victim]?).map (·.bytes)).getD 0 }
      else pfx

def pfxTrimAll (need : Nat) (pfx : Pfx Key Row Fold) : Pfx Key Row Fold :=
  pfxTrim pfx.entries.length need pfx

def prefixCacheConfigure (pfx : Pfx Key Row Fold) (budget : Nat) (ttl : Int) : Pfx Key Row Fold :=
  pfxTrimAll 0 { pfx with budget, ttl }

/-- `prefix_cache_clear`. -/
def prefixCacheClear (pfx : Pfx Key Row Fold) : Pfx Key Row Fold :=
  { pfx with entries := [], bytes := 0 }

/-! ## Fork -/

section
variable [DecidableEq Key]

/-- The longest usable match: its index, its entry and the matched length. -/
def pfxBest (shape : Shape) (key : Key) (toks : List Nat) :
    List (PfxEntry Key Row Fold) → Nat → Option (Nat × PfxEntry Key Row Fold × Nat) →
      Option (Nat × PfxEntry Key Row Fold × Nat)
  | [], _, best => best
  | p :: rest, index, best =>
      let matched := commonPrefix p.toks (toks.take (toks.length - 1))
      if p.key = key ∧ p.bytes = entryBytes shape p.toks.length ∧
          matched > (best.map fun hit => hit.2.2).getD 0 then
        pfxBest shape key toks rest (index + 1) (some (index, p, matched))
      else pfxBest shape key toks rest (index + 1) best

/-- What the install writes: the first `best` rows of the snapshot, and the blob
of an exact hit. On a GPU one forward at position zero goes first. -/
def pfxInstall (s : Setup V σ κ Row Fold Logits) (gpu : Bool) (kv : Kv Row Fold)
    (toks : List Nat) (hit : PfxEntry Key Row Fold) (best : Nat) : Kv Row Fold :=
  let kv := if gpu then forwardBatch s.m.w kv (toks.take 1) 0 else kv
  let kv := { kv with rows := blit kv.rows 0 (hit.rows.take best) }
  if s.m.w.recurrent then { kv with fold := hit.blob, snap := none } else kv

/-- `engine_prefix_reuse`: the cache, the engine and `keep`. -/
def enginePrefixReuse (s : Setup V σ κ Row Fold Logits) (shape : Shape) (key : Key) (gpu : Bool)
    (pfx : Pfx Key Row Fold) (now : Int) (e : Engine V σ κ Row Fold) (toks : List Nat) :
    Pfx Key Row Fold × Engine V σ κ Row Fold × Nat :=
  let (e, keep) := engineRewind s e toks
  if toks.length < 2 then (pfx, e, keep)
  else
    let pfx := pfxExpire pfx now
    match pfxBest shape key toks pfx.entries 0 none with
    | none => (pfx, e, keep)
    | some (index, hit, best) =>
        let recurOk := !s.m.w.recurrent || (best == hit.toks.length && !gpu)
        if recurOk && decide (best ≥ pfxMinTokens) && decide (best > keep) then
          ({ pfx with entries := pfx.entries.set index { hit with used := now, hits := hit.hits + 1 } },
            { e with
              kv := pfxInstall s gpu e.kv toks hit best
              hist := blit e.hist 0 (toks.take best)
              pos := best
              dpos := 0
              gen := genReset s.c e.gen (toks.take best) },
            best)
        else (pfx, e, keep)

/-! ## Publish -/

/-- The half-budget clamp. -/
def clampLength (shape : Shape) (budget n : Nat) : Nat :=
  if entryBytes shape 1 > 0 && decide (entryBytes shape n > budget / 2) then
    budget / 2 / entryBytes shape 1
  else n

/-- The first scan: an entry that covers the prompt is refreshed and ends it, an
entry the prompt extends is dropped, and the rest report how far they agree. -/
inductive Scan (Key Row Fold : Type*)
  | covered (entries : List (PfxEntry Key Row Fold)) (dropped : Nat)
  | fresh (entries : List (PfxEntry Key Row Fold)) (dropped : Nat) (divergeAt : Nat)

def pfxScan (key : Key) (toks : List Nat) (now : Int) :
    List (PfxEntry Key Row Fold) → Nat → Nat → Scan Key Row Fold
  | [], dropped, divergeAt => .fresh [] dropped divergeAt
  | p :: rest, dropped, divergeAt =>
      let lim := min p.toks.length toks.length
      let matched := commonPrefix p.toks toks
      if p.key ≠ key then
        match pfxScan key toks now rest dropped divergeAt with
        | .covered entries dropped => .covered (p :: entries) dropped
        | .fresh entries dropped divergeAt => .fresh (p :: entries) dropped divergeAt
      else if matched = lim ∧ p.toks.length ≥ toks.length then
        .covered ({ p with used := now } :: rest) dropped
      else if matched = lim then pfxScan key toks now rest (dropped + p.bytes) divergeAt
      else
        match pfxScan key toks now rest dropped (max divergeAt matched) with
        | .covered entries dropped => .covered (p :: entries) dropped
        | .fresh entries dropped divergeAt => .fresh (p :: entries) dropped divergeAt

/-- The second scan: refresh the first entry that already holds the cut prefix. -/
def pfxRefresh (key : Key) (toks : List Nat) (now : Int) :
    List (PfxEntry Key Row Fold) → Option (List (PfxEntry Key Row Fold))
  | [] => none
  | p :: rest =>
      if p.key = key ∧ p.toks.length ≥ toks.length ∧ commonPrefix p.toks toks = toks.length then
        some ({ p with used := now } :: rest)
      else (pfxRefresh key toks now rest).map (p :: ·)

/-- What a publish decides before any byte is copied: leave the cache as it is
now, or store the first `count` tokens. -/
inductive Plan (Key Row Fold : Type*)
  | leave (pfx : Pfx Key Row Fold)
  | store (pfx : Pfx Key Row Fold) (count : Nat)

def publishPlan (shape : Shape) (key : Key) (pfx : Pfx Key Row Fold) (now : Int) (pos : Nat)
    (toks : List Nat) : Plan Key Row Fold :=
  if toks.length < pfxMinTokens || decide (pos < toks.length) || pfx.budget == 0 then .leave pfx
  else
    let pfx := pfxExpire pfx now
    let storeN := clampLength shape pfx.budget toks.length
    if storeN < pfxMinTokens then .leave pfx
    else
      match pfxScan key (toks.take storeN) now pfx.entries 0 0 with
      | .covered entries dropped => .leave { pfx with entries, bytes := pfx.bytes - dropped }
      | .fresh entries dropped divergeAt =>
          let pfx := { pfx with entries, bytes := pfx.bytes - dropped }
          if divergeAt ≥ pfxMinTokens ∧ divergeAt < storeN then
            match pfxRefresh key (toks.take divergeAt) now pfx.entries with
            | some entries => .leave { pfx with entries }
            | none => .store pfx divergeAt
          else .store pfx storeN

/-- Whether a snapshot of `count` tokens fits once `pfx_trim` has made room. -/
def pfxFits (shape : Shape) (pfx : Pfx Key Row Fold) (count : Nat) : Bool :=
  decide ((pfxTrimAll (entryBytes shape count) pfx).bytes + entryBytes shape count ≤ pfx.budget)

/-- `pfx_trim` and `pfx_save` over the first `toks.length` rows. The blob is
whatever fold the host buffers hold. -/
def pfxStore (key : Key) (shape : Shape) (pfx : Pfx Key Row Fold) (now : Int) (kv : Kv Row Fold)
    (hostFold : Fold) (toks : List Nat) : Pfx Key Row Fold :=
  let need := entryBytes shape toks.length
  let trimmed := pfxTrimAll need pfx
  if pfxFits shape pfx toks.length then
    { trimmed with
      entries := { key, toks, rows := cells kv.rows toks.length, blob := hostFold,
                   bytes := need, used := now, hits := 0 } :: trimmed.entries
      bytes := trimmed.bytes + need }
  else trimmed

/-- `engine_prefix_publish`; `hostFold` is what the host fold buffers hold: the
live fold, or a stale one while it lives on a device. -/
def enginePrefixPublish (shape : Shape) (key : Key) (pfx : Pfx Key Row Fold) (now : Int)
    (e : Engine V σ κ Row Fold) (hostFold : Fold) (toks : List Nat) : Pfx Key Row Fold :=
  match publishPlan shape key pfx now e.pos toks with
  | .leave pfx => pfx
  | .store pfx count => pfxStore key shape pfx now e.kv hostFold (toks.take count)

end

end GridcoreRunner.Generation
