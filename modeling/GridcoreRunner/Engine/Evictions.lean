import GridcoreRunner.Engine.PrefixPersistence
import GridcoreRunner.Turnover

/-!
# What leaves the shared cache

Every call is a turnover of the entries: what leaves is too old, is extended by what is
published, is cleared, or is evicted for space. The evictions are those of `pfx_trim`, and none
of them takes an entry that was forked while an unproven one is left.
-/

namespace GridcoreRunner.Generation

set_option autoImplicit false

variable {Key V σ κ Row Fold Logits : Type*}

inductive Reason
  | expired | extended | cleared | space
deriving DecidableEq

/-- A use of an entry: another clock, and perhaps a fork. -/
def Used (p q : PfxEntry Key Row Fold) : Prop := q.held = p.held ∧ p.hits ≤ q.hits

abbrev Departure (Key Row Fold : Type*) := Leaving (PfxEntry Key Row Fold) Reason

/-- How the entries become others, with a log of those that leave. -/
abbrev CacheTurnover (before : List (PfxEntry Key Row Fold)) (log : List (Departure Key Row Fold))
    (after : List (PfxEntry Key Row Fold)) : Prop := Turnover Used before log after

def Evicted.departure (gone : Evicted Key Row Fold) : Departure Key Row Fold :=
  ⟨gone.victim, .space, gone.resident⟩

/-- The departures that made room. -/
def forSpace (log : List (Departure Key Row Fold)) : List (Departure Key Row Fold) :=
  log.filter fun gone => gone.reason = .space

section
variable [DecidableEq Key]

/-- What may leave when this prompt is published. -/
def PublishDrops (ttl : Int) (key : Key) (now : Int) (toks : List Nat)
    (gone : Departure Key Row Fold) : Prop :=
  gone.reason = .expired ∧ now - gone.entry.used > ttl ∨
    gone.reason = .extended ∧ gone.entry.key = key ∧ gone.entry.toks <+: toks ∧
      gone.entry.toks.length < toks.length

end

/-- A departure for space takes an entry that was forked only if no other was left. -/
def Spares (gone : Departure Key Row Fold) : Prop :=
  gone.reason = .space ∧ (gone.entry.hits > 0 → ∀ q ∈ gone.resident, q.hits > 0)

/-- What a call may drop of a cache with this lifetime of entries. -/
def CacheCall.Drops (ttl : Int) (gone : Departure UInt64 Row Fold) :
    CacheCall V σ κ Row Fold Logits → Prop
  | .reuse _ _ _ _ now _ _ => gone.reason = .expired ∧ now - gone.entry.used > ttl
  | .publish _ key now _ _ toks => PublishDrops ttl key now toks gone ∨ Spares gone
  | .configure _ _ => Spares gone
  | .clear => gone.reason = .cleared
  | .load _ _ _ _ _ => Spares gone

/-- The entries behind a call come from those before it by a turnover with the call's evictions
that drops only what the call may drop. -/
def CacheCall.Accounted (pfx : Pfx UInt64 Row Fold) (call : CacheCall V σ κ Row Fold Logits) :
    Prop :=
  ∃ log, CacheTurnover pfx.entries log (call.run pfx).entries ∧
    forSpace log = (call.evicted pfx).map Evicted.departure ∧
    ∀ gone ∈ log, call.Drops pfx.ttl gone

end GridcoreRunner.Generation
