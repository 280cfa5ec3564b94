import GridcoreRunner.Engine.Fork
import GridcoreRunner.Engine.PrefixPersistence
import Mathlib.Data.List.TakeWhile

/-!
# How much of a prompt the cache can serve

An entry permits what it has in common with the prompt, or, for a model with recurrent
layers, all of itself or nothing. A reuse goes by the longest common prefix, and a publish
drops what its prompt extends; both are made for rows that can be cut anywhere, and go
wrong where they cannot, or where loaded entries overlap.
-/

namespace GridcoreRunner.Generation

set_option autoImplicit false

variable {V σ κ Row Fold Logits : Type*}

/-- The length that an entry permits. -/
def permitted (recurrent : Bool) (key : UInt64) (toks : List Nat) (p : PfxEntry UInt64 Row Fold) :
    Nat :=
  if p.key = key ∧ pfxMinTokens ≤ matchLength toks p ∧
      (recurrent = true → matchLength toks p = p.toks.length) then matchLength toks p
  else 0

/-- The longest length that a resident entry permits. -/
def available (recurrent : Bool) (key : UInt64) (toks : List Nat)
    (entries : List (PfxEntry UInt64 Row Fold)) : Nat :=
  (entries.map (permitted recurrent key toks)).foldr max 0

theorem available_le {recurrent : Bool} {key : UInt64} {toks : List Nat}
    {entries : List (PfxEntry UInt64 Row Fold)} {bound : Nat} :
    available recurrent key toks entries ≤ bound ↔
      ∀ p ∈ entries, permitted recurrent key toks p ≤ bound := by
  unfold available
  induction entries with
  | nil => exact ⟨(fun _ p never => by cases never), fun _ => Nat.zero_le _⟩
  | cons p entries induction =>
      rw [List.map_cons, List.foldr_cons, max_le_iff, induction, List.forall_mem_cons]

theorem permitted_available {recurrent : Bool} {key : UInt64} {toks : List Nat}
    {entries : List (PfxEntry UInt64 Row Fold)} {p : PfxEntry UInt64 Row Fold} (inside : p ∈ entries) :
    permitted recurrent key toks p ≤ available recurrent key toks entries :=
  available_le.mp (le_refl _) p inside

/-! ## Reuse -/

/-- The first entry with the longest common prefix is cut off by the prompt, while a
whole one is longer than what the engine holds itself. -/
def ReuseSlips (recurrent : Bool) (key : UInt64) (toks : List Nat)
    (entries : List (PfxEntry UInt64 Row Fold)) (keep : Nat) : Prop :=
  recurrent = true ∧
    (∃ (i : Nat) (q : PfxEntry UInt64 Row Fold), entries[i]? = some q ∧ q.key = key ∧
      matchLength toks q ≠ q.toks.length ∧
      (∀ r ∈ entries, r.key = key → matchLength toks r ≤ matchLength toks q) ∧
      ∀ j < i, ∀ r, entries[j]? = some r → r.key = key → matchLength toks r < matchLength toks q) ∧
    ∃ p ∈ entries, p.key = key ∧ matchLength toks p = p.toks.length ∧
      pfxMinTokens ≤ p.toks.length ∧ keep < p.toks.length

variable {layouts : UInt64 → Layout Row Fold}

theorem usable_of_stored {p : PfxEntry UInt64 Row Fold} (stored : Stored layouts p) {key : UInt64} :
    Usable (layouts key).toShape key p ↔ p.key = key := by
  constructor
  · exact fun usable => usable.1
  · intro keyed
    refine ⟨keyed, ?_⟩
    rw [← keyed]
    exact stored.bytes

/-- What `engine_prefix_reuse` returns, by the entry that it chose. -/
theorem reuse_returns (s : Setup V σ κ Row Fold Logits) (shape : Shape) (key : UInt64) (gpu : Bool)
    (pfx : Pfx UInt64 Row Fold) (now : Int) (e : Engine V σ κ Row Fold) (toks : List Nat) :
    (enginePrefixReuse s shape key gpu pfx now e toks).2.2 =
      if toks.length < 2 then (engineRewind s e toks).2
      else
        match pfxBest shape key toks (pfxExpire pfx now).entries 0 none with
        | none => (engineRewind s e toks).2
        | some (_, hit, best) =>
            if (!s.m.w.recurrent || (best == hit.toks.length && !gpu)) = true ∧ pfxMinTokens ≤ best ∧
                (engineRewind s e toks).2 < best then best
            else (engineRewind s e toks).2 := by
  unfold enginePrefixReuse
  dsimp only
  split
  · rfl
  · cases pfxBest shape key toks (pfxExpire pfx now).entries 0 none with
    | none => rfl
    | some found =>
        rcases found with ⟨index, hit, best⟩
        dsimp only
        split
        · next forked =>
          rw [Bool.and_eq_true, Bool.and_eq_true, decide_eq_true_eq, decide_eq_true_eq] at forked
          rw [if_pos ⟨forked.1.1, forked.1.2, forked.2⟩]
        · next other =>
          rw [Bool.and_eq_true, Bool.and_eq_true, decide_eq_true_eq, decide_eq_true_eq] at other
          rw [if_neg fun all => other ⟨⟨all.1, all.2.1⟩, all.2.2⟩]

/-- The longest permitted length is returned, but where a cut entry hides a whole one. -/
theorem reuse_optimal_iff {pfx : Pfx UInt64 Row Fold} (all : AllStored layouts pfx)
    (s : Setup V σ κ Row Fold Logits) (key : UInt64) {gpu : Bool}
    (cpu : s.m.w.recurrent = true → gpu = false) (now : Int) (e : Engine V σ κ Row Fold)
    (toks : List Nat) :
    (enginePrefixReuse s (layouts key).toShape key gpu pfx now e toks).2.2 =
        max (engineRewind s e toks).2
          (available s.m.w.recurrent key toks (pfxExpire pfx now).entries) ↔
      ¬ReuseSlips s.m.w.recurrent key toks (pfxExpire pfx now).entries (engineRewind s e toks).2 := by
  have live : ∀ p ∈ (pfxExpire pfx now).entries, Stored layouts p :=
    fun p member => all p (List.filter_sublist.subset member)
  rw [reuse_returns]
  generalize (engineRewind s e toks).2 = keep
  generalize (pfxExpire pfx now).entries = entries at live
  generalize s.m.w.recurrent = recurrent at cpu
  have bound : ∀ p : PfxEntry UInt64 Row Fold, matchLength toks p ≤ p.toks.length ∧
      matchLength toks p ≤ toks.length - 1 := by
    intro p
    have both := common_prefix_le p.toks (toks.take (toks.length - 1))
    rw [List.length_take] at both
    unfold matchLength
    omega
  -- where nothing in common is long enough, nothing is permitted and nothing slips
  have short : (∀ p ∈ entries, p.key = key → matchLength toks p < pfxMinTokens) →
      (keep = max keep (available recurrent key toks entries) ↔
        ¬ReuseSlips recurrent key toks entries keep) := by
    intro less
    have none_ : available recurrent key toks entries ≤ 0 := by
      rw [available_le]
      intro p member
      unfold permitted
      rw [if_neg fun all => absurd (less p member all.1) (not_lt.mpr all.2.1)]
    rw [Nat.le_zero.mp none_, Nat.max_zero]
    refine ⟨fun _ slips => ?_, fun _ => rfl⟩
    rcases slips.2.2 with ⟨p, member, keyed, whole, long, _⟩
    have common := less p member keyed
    omega
  by_cases tiny : toks.length < 2
  · rw [if_pos tiny]
    apply short
    intro p _ _
    have least : pfxMinTokens = 16 := rfl
    have limit := (bound p).2
    omega
  rw [if_neg tiny]
  rcases best_hit (layouts key).toShape key toks entries 0 none with ⟨none_, least⟩ |
      ⟨⟨index, hit, best⟩, found, inner⟩
  · rw [none_]
    apply short
    intro p member keyed
    have small : matchLength toks p ≤ 0 := least p member ((usable_of_stored (live p member)).mpr keyed)
    have sixteen : pfxMinTokens = 16 := rfl
    omega
  · rw [found]
    dsimp only
    have longest : ∀ p ∈ entries, p.key = key → matchLength toks p ≤ best := fun p member keyed =>
      inner.longest p member ((usable_of_stored (live p member)).mpr keyed)
    have matched : best = matchLength toks hit := inner.matched
    rcases inner.place with ⟨offset, _, there, first⟩
    have inside : hit ∈ entries := List.mem_of_getElem? there
    have keyed : hit.key = key := inner.usable.1
    by_cases accepted : (!recurrent || (best == hit.toks.length && !gpu)) = true
    · -- the longest common prefix is what is permitted
      have whole : recurrent = true → best = hit.toks.length := by
        intro recur
        rw [recur, Bool.not_true, Bool.false_or, Bool.and_eq_true, beq_iff_eq] at accepted
        exact accepted.1
      have sound : ¬ReuseSlips recurrent key toks entries keep := by
        rintro ⟨recur, ⟨i, q, place, other, cut, most, earliest⟩, _⟩
        have tie : matchLength toks q = best :=
          Nat.le_antisymm (longest q (List.mem_of_getElem? place) other)
            (by rw [matched]; exact most hit inside keyed)
        rcases Nat.lt_trichotomy i offset with before | same | behind
        · have less := first i before q place
            ((usable_of_stored (live q (List.mem_of_getElem? place))).mpr other)
          exact absurd tie (Nat.ne_of_lt less)
        · rw [same, there] at place
          cases place
          apply cut
          rw [tie]
          exact whole recur
        · have less := earliest offset behind hit there keyed
          omega
      refine ⟨fun _ => sound, fun _ => ?_⟩
      by_cases long : pfxMinTokens ≤ best
      · have most : available recurrent key toks entries = best := by
          apply Nat.le_antisymm
          · rw [available_le]
            intro p member
            unfold permitted
            split
            · next all => exact longest p member all.1
            · exact Nat.zero_le _
          · have here := @permitted_available _ _ recurrent key toks entries hit inside
            unfold permitted at here
            rw [← matched, if_pos ⟨keyed, long, whole⟩] at here
            exact here
        rw [most]
        by_cases more : keep < best
        · rw [if_pos ⟨accepted, long, more⟩]
          omega
        · rw [if_neg fun all => more all.2.2]
          omega
      · rw [if_neg fun all => long all.2.1]
        apply (short ?_).mpr sound
        intro p member keyed
        have less := longest p member keyed
        omega
    · -- the entry is cut off
      rw [if_neg fun all => accepted all.1]
      have recur : recurrent = true := by
        by_contra plain
        rw [Bool.not_eq_true] at plain
        rw [plain] at accepted
        exact accepted rfl
      have cut : best ≠ hit.toks.length := by
        intro whole
        apply accepted
        rw [cpu recur, whole, beq_self_eq_true]
        exact Bool.or_true _
      have chosen : ∃ (i : Nat) (q : PfxEntry UInt64 Row Fold), entries[i]? = some q ∧ q.key = key ∧
          matchLength toks q ≠ q.toks.length ∧
          (∀ r ∈ entries, r.key = key → matchLength toks r ≤ matchLength toks q) ∧
          ∀ j < i, ∀ r, entries[j]? = some r → r.key = key →
            matchLength toks r < matchLength toks q := by
        rw [matched] at cut longest first
        refine ⟨offset, hit, there, keyed, cut, longest, fun j before r place other => ?_⟩
        exact first j before r place
          ((usable_of_stored (live r (List.mem_of_getElem? place))).mpr other)
      have hidden : ReuseSlips recurrent key toks entries keep ↔
          ¬available recurrent key toks entries ≤ keep := by
        rw [available_le]
        constructor
        · rintro ⟨_, _, p, member, other, whole, long, more⟩ all
          have less := all p member
          unfold permitted at less
          rw [if_pos ⟨other, by omega, fun _ => whole⟩] at less
          omega
        · intro some_
          refine ⟨recur, chosen, ?_⟩
          by_contra none_
          apply some_
          intro p member
          unfold permitted
          split
          · next all =>
            by_contra more
            have whole := all.2.2 recur
            exact none_ ⟨p, member, all.1, whole, by omega, by omega⟩
          · exact Nat.zero_le _
      rw [hidden, not_not]
      omega

/-! ## What a publish leaves -/

theorem permitted_same {recurrent : Bool} {key : UInt64} {toks : List Nat}
    {p q : PfxEntry UInt64 Row Fold} (keyed : p.key = q.key) (same : p.toks = q.toks) :
    permitted recurrent key toks p = permitted recurrent key toks q := by
  unfold permitted matchLength
  rw [keyed, same]

theorem available_held {recurrent : Bool} {key : UInt64} {toks : List Nat}
    {entries after : List (PfxEntry UInt64 Row Fold)}
    (same : after.map PfxEntry.held = entries.map PfxEntry.held) :
    available recurrent key toks after = available recurrent key toks entries := by
  have through : ∀ list : List (PfxEntry UInt64 Row Fold),
      list.map (permitted recurrent key toks) = (list.map PfxEntry.held).map fun held =>
        permitted recurrent key toks
          ({ key := held.key, toks := held.toks, rows := [], blob := none, bytes := held.bytes,
             used := 0, hits := 0, load := held.load } : PfxEntry UInt64 Row (Option Fold)) := by
    intro list
    rw [List.map_map]
    rfl
  unfold available
  rw [through, through, same]

/-- Entry for entry, as much is permitted. -/
theorem available_mono {recurrent : Bool} {key : UInt64} {toks : List Nat}
    {entries after : List (PfxEntry UInt64 Row Fold)}
    (each : ∀ p ∈ entries, ∃ r ∈ after,
      permitted recurrent key toks p ≤ permitted recurrent key toks r) :
    available recurrent key toks entries ≤ available recurrent key toks after := by
  rw [available_le]
  intro p member
  rcases each p member with ⟨r, inside, more⟩
  exact more.trans (permitted_available inside)

theorem common_prefix_whole {left right : List Nat} :
    commonPrefix left right = left.length ↔ left <+: right := by
  constructor
  · intro whole
    have here := (le_common_iff left right left.length).mp (Nat.le_of_eq whole.symm)
    rw [List.take_length] at here
    rw [here.2.2]
    exact List.take_prefix _ _
  · intro front
    apply Nat.le_antisymm (common_prefix_le _ _).1
    refine (le_common_iff _ _ _).mpr ⟨le_refl _, front.length_le, ?_⟩
    rw [List.take_length]
    exact List.prefix_iff_eq_take.mp front

theorem permitted_front {key : UInt64} {toks : List Nat} {p r : PfxEntry UInt64 Row Fold}
    (keyed : r.key = p.key) (front : p.toks <+: r.toks) :
    permitted false key toks p ≤ permitted false key toks r := by
  have more : matchLength toks p ≤ matchLength toks r := by
    have here := (le_common_iff p.toks (toks.take (toks.length - 1)) _).mp (le_refl _)
    refine (le_common_iff _ _ _).mpr ⟨here.1.trans front.length_le, here.2.1, ?_⟩
    rcases front with ⟨tail, same⟩
    rw [← same]
    exact (List.take_append_of_le_length here.1).trans here.2.2
  unfold permitted
  rw [keyed]
  by_cases long : p.key = key ∧ pfxMinTokens ≤ matchLength toks p ∧
      (false = true → matchLength toks p = p.toks.length)
  · rw [if_pos long, if_pos ⟨long.1, long.2.1.trans more, fun never => by cases never⟩]
    exact more
  · rw [if_neg long]
    exact Nat.zero_le _

theorem extended_iff {key : UInt64} {toks : List Nat} {p : PfxEntry UInt64 Row Fold} :
    extended key toks p = true ↔ p.key = key ∧ p.toks <+: toks ∧ p.toks.length < toks.length := by
  unfold extended
  rw [decide_eq_true_eq]
  constructor
  · rintro ⟨keyed, whole, short⟩
    rw [Nat.min_eq_left (Nat.le_of_lt short)] at whole
    exact ⟨keyed, common_prefix_whole.mp whole, short⟩
  · rintro ⟨keyed, front, short⟩
    rw [Nat.min_eq_left (Nat.le_of_lt short)]
    exact ⟨keyed, common_prefix_whole.mpr front, short⟩

theorem covers_front {key : UInt64} {toks : List Nat} {p : PfxEntry UInt64 Row Fold}
    (covers : Covers key toks p) : toks <+: p.toks := by
  have whole := covers.2.1
  rw [Nat.min_eq_right covers.2.2, common_prefix_comm] at whole
  exact common_prefix_whole.mp whole

/-- The prompt that goes one token beyond an entry. -/
def beyond (p : PfxEntry UInt64 Row Fold) : List Nat := p.toks ++ [0]

theorem match_beyond (p r : PfxEntry UInt64 Row Fold) :
    matchLength (beyond p) r = commonPrefix r.toks p.toks := by
  have front : (p.toks ++ [0]).take ((p.toks ++ [0]).length - 1) = p.toks := by
    rw [List.length_append]
    exact List.take_left' rfl
  unfold matchLength beyond
  rw [front]

theorem available_beyond {recurrent : Bool} {entries : List (PfxEntry UInt64 Row Fold)}
    {p : PfxEntry UInt64 Row Fold} (inside : p ∈ entries) (long : pfxMinTokens ≤ p.toks.length) :
    p.toks.length ≤ available recurrent p.key (beyond p) entries := by
  have here := @permitted_available _ _ recurrent p.key (beyond p) entries p inside
  have itself : commonPrefix p.toks p.toks = p.toks.length :=
    common_prefix_whole.mpr (List.prefix_refl _)
  unfold permitted at here
  rw [match_beyond, itself, if_pos ⟨rfl, long, fun _ => rfl⟩] at here
  exact here

/-- What an entry permits one token beyond another: all of that just if it begins with it,
and for a whole entry, if it is the same. -/
theorem permitted_beyond_lt {recurrent : Bool} {p r : PfxEntry UInt64 Row Fold}
    (some_ : 0 < p.toks.length)
    (less : r.key = p.key → p.toks <+: r.toks → recurrent = true ∧ r.toks ≠ p.toks) :
    permitted recurrent p.key (beyond p) r < p.toks.length := by
  unfold permitted
  rw [match_beyond]
  split
  · next all =>
    have bound := common_prefix_le r.toks p.toks
    apply lt_of_le_of_ne bound.2
    intro whole
    have front : p.toks <+: r.toks := by
      rw [← common_prefix_whole, common_prefix_comm]
      exact whole
    have other := less all.1 front
    apply other.2
    rw [whole] at all
    have same : p.toks = r.toks := front.eq_of_length (all.2.2 other.1)
    exact same.symm
  · exact some_

theorem available_lt {recurrent : Bool} {key : UInt64} {toks : List Nat}
    {entries : List (PfxEntry UInt64 Row Fold)} {bound : Nat} (some_ : 0 < bound)
    (each : ∀ r ∈ entries, permitted recurrent key toks r < bound) :
    available recurrent key toks entries < bound := by
  have le : available recurrent key toks entries ≤ bound - 1 := by
    rw [available_le]
    intro r member
    have here := each r member
    omega
  omega

/-- The publish gets as far as to look at the entries. -/
def Publishes (shape : Shape) (budget pos : Nat) (toks : List Nat) : Prop :=
  pfxMinTokens ≤ toks.length ∧ toks.length ≤ pos ∧ budget ≠ 0 ∧
    pfxMinTokens ≤ clampLength shape budget toks.length

/-- What it would store. -/
def stored (shape : Shape) (budget : Nat) (toks : List Nat) : List Nat :=
  toks.take (clampLength shape budget toks.length)

/-- No entry is out of date. -/
def Unexpired (pfx : Pfx UInt64 Row Fold) (now : Int) : Prop :=
  ∀ p ∈ pfx.entries, ¬now - p.used > pfx.ttl

theorem expire_unexpired {pfx : Pfx UInt64 Row Fold} {now : Int} (fresh : Unexpired pfx now) :
    pfxExpire pfx now = pfx := by
  have alive : pfx.entries.filter (fun p => !decide (now - p.used > pfx.ttl)) = pfx.entries := by
    apply List.filter_eq_self.mpr
    intro p member
    rw [decide_eq_false (fresh p member)]
    rfl
  have dead : pfx.entries.filter (fun p => decide (now - p.used > pfx.ttl)) = [] := by
    apply List.filter_eq_nil_iff.mpr
    intro p member
    rw [decide_eq_true_eq]
    exact fresh p member
  unfold pfxExpire
  rw [alive, dead]
  rfl

/-- What the clamp leaves fits into the budget. -/
theorem clamp_fits {shape : Shape} {budget n : Nat}
    (long : pfxMinTokens ≤ clampLength shape budget n) :
    entryBytes shape (clampLength shape budget n) ≤ budget := by
  generalize clamped : clampLength shape budget n = count at long
  have least : pfxMinTokens = 16 := rfl
  unfold clampLength at clamped
  by_cases cut : (decide (entryBytes shape 1 > 0) && decide (entryBytes shape n > budget / 2)) = true
  · rw [if_pos cut] at clamped
    have one : entryBytes shape 1 = shape.rowBytes + shape.blobBytes := by
      unfold entryBytes
      rw [Nat.one_mul]
    have fits : count * entryBytes shape 1 ≤ budget / 2 := by
      rw [← clamped]
      exact Nat.div_mul_le_self _ _
    calc entryBytes shape count ≤ count * shape.rowBytes + count * shape.blobBytes :=
          Nat.add_le_add_left (Nat.le_mul_of_pos_left _ (by omega)) _
      _ = count * entryBytes shape 1 := by rw [one, Nat.mul_add]
      _ ≤ budget := by omega
  · rw [if_neg cut] at clamped
    rw [← clamped]
    rw [Bool.and_eq_true, decide_eq_true_eq, decide_eq_true_eq, not_and_or] at cut
    rcases cut with free | small
    · have rows : shape.rowBytes = 0 ∧ shape.blobBytes = 0 := by
        unfold entryBytes at free
        omega
      unfold entryBytes
      rw [rows.1, rows.2, Nat.mul_zero]
      exact Nat.zero_le _
    · omega

/-- Where a publish makes no room, it goes one of three ways once it looks at the entries:
the first that covers its tokens is refreshed, behind a divergence nothing is stored, or
the new entry is. In each of them it has dropped what it extends. -/
inductive PublishWay (key : UInt64) (now : Int) (toks : List Nat)
    (entries after : List (PfxEntry UInt64 Row Fold)) : Prop
  | covered (front back : List (PfxEntry UInt64 Row Fold)) (c : PfxEntry UInt64 Row Fold)
      (split : entries = front ++ c :: back) (before : ∀ q ∈ front, ¬Covers key toks q)
      (covers : Covers key toks c)
      (left : after = (front.filter fun q => !extended key toks q) ++ { c with used := now } :: back)
  | diverged (uncovered : ∀ q ∈ entries, ¬Covers key toks q)
      (shared : ∃ r ∈ entries, r.key = key ∧ extended key toks r = false ∧
        pfxMinTokens ≤ commonPrefix r.toks toks)
      (left : after.map PfxEntry.held =
        (entries.filter fun q => !extended key toks q).map PfxEntry.held)
  | linked (uncovered : ∀ q ∈ entries, ¬Covers key toks q)
      (apart : ∀ r ∈ entries, r.key = key → extended key toks r = false →
        commonPrefix r.toks toks < pfxMinTokens)
      (new : PfxEntry UInt64 Row Fold) (keyed : new.key = key) (whole : new.toks = toks)
      (left : after = new :: entries.filter fun q => !extended key toks q)

theorem publish_way {pfx : Pfx UInt64 Row Fold} (accounts : Accounts pfx) {shape : Shape}
    {key : UInt64} {now : Int} {e : Engine V σ κ Row Fold} {hostFold : Fold} {toks : List Nat}
    (fresh : Unexpired pfx now)
    (roomy : (CacheCall.publish shape key now e hostFold toks :
      CacheCall V σ κ Row Fold Logits).evicted pfx = []) :
    (Publishes shape pfx.budget e.pos toks → PublishWay key now (stored shape pfx.budget toks)
        pfx.entries (enginePrefixPublish shape key pfx now e hostFold toks).entries) ∧
      (¬Publishes shape pfx.budget e.pos toks →
        (enginePrefixPublish shape key pfx now e hostFold toks).entries = pfx.entries) := by
  unfold CacheCall.evicted at roomy
  unfold enginePrefixPublish
  unfold publishPlan at roomy ⊢
  dsimp only at roomy ⊢
  rw [expire_unexpired fresh] at roomy ⊢
  have least : pfxMinTokens = 16 := rfl
  by_cases refused : (toks.length < pfxMinTokens || decide (e.pos < toks.length) ||
      pfx.budget == 0) = true
  · rw [if_pos refused] at roomy ⊢
    refine ⟨fun publishes => ?_, fun _ => rfl⟩
    rw [Bool.or_eq_true, Bool.or_eq_true, decide_eq_true_eq, decide_eq_true_eq, beq_iff_eq] at refused
    rcases refused with (short | ahead) | nothing
    · exact absurd publishes.1 (not_le.mpr short)
    · exact absurd publishes.2.1 (not_le.mpr ahead)
    · exact absurd nothing publishes.2.2.1
  rw [if_neg refused] at roomy ⊢
  rw [Bool.or_eq_true, Bool.or_eq_true, decide_eq_true_eq, decide_eq_true_eq, beq_iff_eq,
    not_or, not_or, not_lt, not_lt] at refused
  by_cases short : clampLength shape pfx.budget toks.length < pfxMinTokens
  · rw [if_pos short] at roomy ⊢
    exact ⟨fun publishes => absurd publishes.2.2.2 (not_le.mpr short), fun _ => rfl⟩
  rw [if_neg short] at roomy ⊢
  have publishes : Publishes shape pfx.budget e.pos toks :=
    ⟨refused.1.1, refused.1.2, refused.2, not_lt.mp short⟩
  refine ⟨fun _ => ?_, fun never => absurd publishes never⟩
  have limit := clamp_length_le shape pfx.budget toks.length (by omega)
  cases scanned : pfxScan key (toks.take (clampLength shape pfx.budget toks.length)) now
      pfx.entries 0 0 with
  | covered entries dropped =>
      rcases scan_covered key _ now pfx.entries 0 0 scanned with
        ⟨front, c, back, split, before, covers, kept, _⟩
      exact .covered front back c split before covers kept
  | fresh entries dropped divergeAt =>
      rw [scanned] at roomy
      have spec := scan_fresh key _ now pfx.entries 0 0 scanned
      dsimp only at roomy ⊢
      by_cases cut : divergeAt ≥ pfxMinTokens ∧
          divergeAt < clampLength shape pfx.budget toks.length
      · rw [if_pos cut] at roomy ⊢
        rcases (cut_refreshed key toks now scanned cut.1).2 with ⟨kept, refreshed⟩
        rw [refreshed] at roomy ⊢
        apply PublishWay.diverged spec.uncovered
        · rcases scan_diverges key _ now pfx.entries 0 0 scanned with
            none_ | ⟨r, member, keyed, common, _⟩
          · omega
          · rw [spec.stayed] at member
            rcases List.mem_filter.mp member with ⟨inside, unextended⟩
            rw [Bool.not_eq_true'] at unextended
            exact ⟨r, inside, keyed, unextended, by rw [← common] at cut; exact cut.1⟩
        · show kept.map PfxEntry.held = _
          rw [refresh_held key _ now refreshed, spec.stayed]
      · rw [if_neg cut] at roomy ⊢
        have early : divergeAt < pfxMinTokens := by
          by_contra late
          exact cut ⟨not_lt.mp late, (cut_refreshed key toks now scanned (not_lt.mp late)).1⟩
        have size : (toks.take (clampLength shape pfx.budget toks.length)).length =
            clampLength shape pfx.budget toks.length := List.length_take_of_le limit
        have fits := @clamp_fits shape pfx.budget toks.length (not_lt.mp short)
        dsimp only at roomy ⊢
        rw [size] at roomy
        have parts := held_bytes_filter pfx.entries (extended key (stored shape pfx.budget toks))
        have total : pfx.bytes - dropped = heldBytes entries := by
          have whole := accounts.total
          have gone : dropped = 0 + heldBytes (pfx.entries.filter
            (extended key (stored shape pfx.budget toks))) := spec.gone
          have stayed : entries = pfx.entries.filter
            (fun q => !extended key (stored shape pfx.budget toks) q) := spec.stayed
          rw [stayed]
          omega
        -- nothing is evicted, so the trimmed cache is the scanned one, with room in it
        have room := @trim_spec _ _ _ entries.length (entryBytes shape
            (clampLength shape pfx.budget toks.length))
          { pfx with entries, bytes := pfx.bytes - dropped } (le_refl _) total
        rw [untrimmed roomy] at room
        unfold pfxStore pfxFits pfxTrimAll
        dsimp only
        rw [size, untrimmed roomy, if_pos]
        · rw [show entries = _ from spec.stayed]
          apply PublishWay.linked spec.uncovered _ _ _ _ rfl
          · intro r inside keyed unextended
            refine lt_of_le_of_lt (spec.below r ?_ keyed) early
            rw [spec.stayed]
            refine List.mem_filter.mpr ⟨inside, ?_⟩
            rw [Bool.not_eq_true']
            exact unextended
          · rfl
          · rfl
        · rw [decide_eq_true_eq]
          dsimp only at room ⊢
          rcases room.2.2.2.2 with nothing | enough
          · rw [nothing] at total
            have none_ : pfx.bytes - dropped = 0 := total
            omega
          · exact enough.1

/-! ## What a publish loses -/

/-- For every prompt of every model, as much is available as before. -/
def Keeps (recurrent : UInt64 → Bool) (entries after : List (PfxEntry UInt64 Row Fold)) : Prop :=
  ∀ (key : UInt64) (toks : List Nat), available (recurrent key) key toks entries ≤
    available (recurrent key) key toks after

instance (key : UInt64) (toks : List Nat) (p : PfxEntry UInt64 Row Fold) :
    Decidable (Covers key toks p) := inferInstanceAs (Decidable (_ ∧ _ ∧ _))

/-- The entries in front of the first that covers the tokens, and those from there on. -/
def scannedFront (key : UInt64) (toks : List Nat) (entries : List (PfxEntry UInt64 Row Fold)) :
    List (PfxEntry UInt64 Row Fold) := entries.takeWhile fun q => !decide (Covers key toks q)

def scannedBack (key : UInt64) (toks : List Nat) (entries : List (PfxEntry UInt64 Row Fold)) :
    List (PfxEntry UInt64 Row Fold) := entries.dropWhile fun q => !decide (Covers key toks q)

/-- The scan drops a shorter entry that nothing replaces. With recurrent layers a longer one
does not, so it is lost unless a duplicate lies behind the entry that ends the scan; without,
it is lost where the publish ends at a divergence that lies in front of its end. -/
def PublishSlips (recurrent : Bool) (key : UInt64) (toks : List Nat)
    (entries : List (PfxEntry UInt64 Row Fold)) : Prop :=
  if recurrent then ∃ p ∈ scannedFront key toks entries, extended key toks p = true ∧
    ∀ r ∈ scannedBack key toks entries, r.key = key → r.toks ≠ p.toks
  else (∀ q ∈ entries, ¬Covers key toks q) ∧
    (∃ r ∈ entries, r.key = key ∧ extended key toks r = false ∧
      pfxMinTokens ≤ commonPrefix r.toks toks) ∧
    ∃ p ∈ entries, extended key toks p = true ∧ ∀ r ∈ entries, r.key = key →
      extended key toks r = false → commonPrefix r.toks toks < p.toks.length

theorem scanned_split {key : UInt64} {toks : List Nat} {front back : List (PfxEntry UInt64 Row Fold)}
    {c : PfxEntry UInt64 Row Fold} (before : ∀ q ∈ front, ¬Covers key toks q)
    (covers : Covers key toks c) : scannedFront key toks (front ++ c :: back) = front ∧
      scannedBack key toks (front ++ c :: back) = c :: back := by
  have passes : ∀ q ∈ front, (!decide (Covers key toks q)) = true := by
    intro q member
    rw [decide_eq_false (before q member)]
    rfl
  have stops : (!decide (Covers key toks c)) = false := by
    rw [decide_eq_true covers]
    rfl
  unfold scannedFront scannedBack
  rw [List.takeWhile_append_of_pos passes, List.dropWhile_append_of_pos passes, List.takeWhile_cons,
    List.dropWhile_cons, stops]
  exact ⟨List.append_nil _, rfl⟩

theorem scanned_all {key : UInt64} {toks : List Nat} {entries : List (PfxEntry UInt64 Row Fold)}
    (uncovered : ∀ q ∈ entries, ¬Covers key toks q) :
    scannedFront key toks entries = entries ∧ scannedBack key toks entries = [] := by
  have passes : ∀ q ∈ entries, (!decide (Covers key toks q)) = true := by
    intro q member
    rw [decide_eq_false (uncovered q member)]
    rfl
  unfold scannedFront scannedBack
  exact ⟨List.takeWhile_eq_self_iff.mpr passes, List.dropWhile_eq_nil_iff.mpr passes⟩

/-- What is dropped is kept available if each dropped entry has a stand-in: one that goes on
from it, or for a model with recurrent layers the same tokens. -/
theorem keeps_of {recurrent : UInt64 → Bool} {key : UInt64} {toks : List Nat}
    {entries after : List (PfxEntry UInt64 Row Fold)}
    (others : ∀ p ∈ entries, extended key toks p = false →
      ∃ r ∈ after, r.key = p.key ∧ r.toks = p.toks)
    (dropped : ∀ p ∈ entries, extended key toks p = true → ∃ r ∈ after, r.key = p.key ∧
      (r.toks = p.toks ∨ recurrent key = false ∧ p.toks <+: r.toks)) :
    Keeps recurrent entries after := by
  intro other prompt
  apply available_mono
  intro p member
  cases gone : extended key toks p with
  | false =>
      rcases others p member gone with ⟨r, inside, keyed, same⟩
      exact ⟨r, inside, le_of_eq (permitted_same keyed.symm same.symm)⟩
  | true =>
      rcases dropped p member gone with ⟨r, inside, keyed, same | ⟨plain, front⟩⟩
      · exact ⟨r, inside, le_of_eq (permitted_same keyed.symm same.symm)⟩
      · refine ⟨r, inside, ?_⟩
        by_cases mine : p.key = other
        · rw [← mine, (extended_iff.mp gone).1, plain]
          exact permitted_front keyed front
        · unfold permitted
          rw [if_neg fun all => mine all.1]
          exact Nat.zero_le _

/-- An entry is lost where nothing that is left goes on from it, or, for a model with
recurrent layers, is the same. -/
theorem loses_of {recurrent : UInt64 → Bool} {entries after : List (PfxEntry UInt64 Row Fold)}
    {p : PfxEntry UInt64 Row Fold} (inside : p ∈ entries) (long : pfxMinTokens ≤ p.toks.length)
    (left : ∀ r ∈ after, r.key = p.key → p.toks <+: r.toks →
      recurrent p.key = true ∧ r.toks ≠ p.toks) : ¬Keeps recurrent entries after := by
  intro keeps
  have some_ : 0 < p.toks.length := lt_of_lt_of_le (Nat.succ_pos 15) long
  have before := @available_beyond _ _ (recurrent p.key) entries p inside long
  have behind := available_lt some_ fun r member => permitted_beyond_lt some_ (left r member)
  exact absurd ((before.trans (keeps p.key (beyond p)))) (not_le.mpr behind)

theorem covered_loses {recurrent : UInt64 → Bool} {key : UInt64} {now : Int} {toks : List Nat}
    {front back : List (PfxEntry UInt64 Row Fold)} {c : PfxEntry UInt64 Row Fold}
    (long : ∀ p ∈ front, pfxMinTokens ≤ p.toks.length)
    (before : ∀ q ∈ front, ¬Covers key toks q) (covers : Covers key toks c) :
    Keeps recurrent (front ++ c :: back)
        ((front.filter fun q => !extended key toks q) ++ { c with used := now } :: back) ↔
      ¬PublishSlips (recurrent key) key toks (front ++ c :: back) := by
  have split := @scanned_split _ _ key toks front back c before covers
  have goes_on : ∀ p : PfxEntry UInt64 Row Fold, extended key toks p = true → p.toks <+: c.toks := by
    intro p gone
    exact (extended_iff.mp gone).2.1.trans (covers_front covers)
  have backs : ∀ p ∈ c :: back, ∃ r ∈ (front.filter fun q => !extended key toks q) ++
      { c with used := now } :: back, r.key = p.key ∧ r.toks = p.toks := by
    intro p behind
    rcases List.mem_cons.mp behind with same | later
    · refine ⟨{ c with used := now }, List.mem_append_right _ List.mem_cons_self, ?_⟩
      rw [same]
      exact ⟨rfl, rfl⟩
    · exact ⟨p, List.mem_append_right _ (List.mem_cons_of_mem _ later), rfl, rfl⟩
  have others : ∀ p ∈ front ++ c :: back, extended key toks p = false →
      ∃ r ∈ (front.filter fun q => !extended key toks q) ++ { c with used := now } :: back,
        r.key = p.key ∧ r.toks = p.toks := by
    intro p member unextended
    rcases List.mem_append.mp member with inside | behind
    · refine ⟨p, List.mem_append_left _ (List.mem_filter.mpr ⟨inside, ?_⟩), rfl, rfl⟩
      rw [unextended]
      rfl
    · exact backs p behind
  unfold PublishSlips
  rw [split.1, split.2]
  cases recur : recurrent key with
  | false =>
      rw [if_neg Bool.false_ne_true]
      constructor
      · rintro _ ⟨uncovered, _⟩
        exact uncovered c (List.mem_append_right _ List.mem_cons_self) covers
      · intro _
        apply keeps_of
        · exact others
        · intro p _ gone
          refine ⟨{ c with used := now }, List.mem_append_right _ List.mem_cons_self, ?_, ?_⟩
          · exact covers.1.trans (extended_iff.mp gone).1.symm
          · exact Or.inr ⟨recur, goes_on p gone⟩
  | true =>
      rw [if_pos rfl]
      constructor
      · rintro keeps ⟨p, inside, gone, unreplaced⟩
        have keyed := (extended_iff.mp gone).1
        apply @loses_of _ _ recurrent _ _ p (List.mem_append_left _ inside) (long p inside) _ keeps
        intro r member same _
        rw [keyed] at same ⊢
        refine ⟨recur, fun twin => ?_⟩
        rcases List.mem_append.mp member with kept | behind
        · rcases List.mem_filter.mp kept with ⟨_, unextended⟩
          rw [Bool.not_eq_true'] at unextended
          have too : extended key toks r = true := by
            rw [extended_iff, same, twin]
            exact ⟨rfl, (extended_iff.mp gone).2⟩
          rw [too] at unextended
          cases unextended
        · rcases List.mem_cons.mp behind with here | later
          · rw [here] at twin
            exact unreplaced c List.mem_cons_self covers.1 twin
          · exact unreplaced r (List.mem_cons_of_mem _ later) same twin
      · intro replaced
        apply @keeps_of _ _ recurrent key toks
        · exact others
        · intro p member gone
          have keyed := (extended_iff.mp gone).1
          rcases List.mem_append.mp member with inside | behind
          · have twin : ∃ r ∈ c :: back, r.key = key ∧ r.toks = p.toks := by
              by_contra none_
              apply replaced
              refine ⟨p, inside, gone, fun r member same twin => ?_⟩
              exact none_ ⟨r, member, same, twin⟩
            rcases twin with ⟨r, behind, same, twin⟩
            rcases backs r behind with ⟨q, left, keyed', toks'⟩
            exact ⟨q, left, keyed'.trans (same.trans keyed.symm), Or.inl (toks'.trans twin)⟩
          · rcases backs p behind with ⟨q, left, keyed', toks'⟩
            exact ⟨q, left, keyed', Or.inl toks'⟩

theorem front_of_common {left right toks : List Nat} (front : left <+: toks)
    (long : left.length ≤ commonPrefix right toks) : left <+: right := by
  have here := (le_common_iff right toks left.length).mp long
  rw [List.prefix_iff_eq_take.mp front, ← here.2.2]
  exact List.take_prefix _ _

theorem common_of_front {left right toks : List Nat} (front : left <+: toks)
    (goes_on : left <+: right) : left.length ≤ commonPrefix right toks := by
  refine (le_common_iff right toks left.length).mpr ⟨goes_on.length_le, front.length_le, ?_⟩
  rw [← List.prefix_iff_eq_take.mp front, ← List.prefix_iff_eq_take.mp goes_on]

theorem uncovered_loses {recurrent : UInt64 → Bool} {key : UInt64} {toks : List Nat}
    {entries after : List (PfxEntry UInt64 Row Fold)}
    (long : ∀ p ∈ entries, pfxMinTokens ≤ p.toks.length)
    (uncovered : ∀ q ∈ entries, ¬Covers key toks q)
    (left : ∀ p ∈ entries, extended key toks p = false → p ∈ after)
    (source : ∀ r ∈ after, r ∈ entries ∧ extended key toks r = false ∨
      r.key = key ∧ r.toks = toks ∧ ∀ q ∈ entries, q.key = key → extended key toks q = false →
        commonPrefix q.toks toks < pfxMinTokens)
    (stores : (∃ r ∈ after, r.key = key ∧ r.toks = toks) ∨ ∃ r ∈ entries, r.key = key ∧
      extended key toks r = false ∧ pfxMinTokens ≤ commonPrefix r.toks toks) :
    Keeps recurrent entries after ↔ ¬PublishSlips (recurrent key) key toks entries := by
  have scanned := scanned_all uncovered
  have others : ∀ p ∈ entries, extended key toks p = false →
      ∃ r ∈ after, r.key = p.key ∧ r.toks = p.toks :=
    fun p member unextended => ⟨p, left p member unextended, rfl, rfl⟩
  unfold PublishSlips
  rw [scanned.1, scanned.2]
  cases recur : recurrent key with
  | true =>
      rw [if_pos rfl]
      constructor
      · rintro keeps ⟨p, inside, gone, _⟩
        have spec := extended_iff.mp gone
        apply @loses_of _ _ recurrent _ _ p inside (long p inside) _ keeps
        intro r member same _
        rw [spec.1] at same ⊢
        refine ⟨recur, fun twin => ?_⟩
        rcases source r member with ⟨_, unextended⟩ | ⟨_, whole, _⟩
        · have too : extended key toks r = true := by
            rw [extended_iff, same, twin]
            exact ⟨rfl, spec.2⟩
          rw [too] at unextended
          cases unextended
        · rw [← twin, whole] at spec
          exact absurd spec.2.2 (lt_irrefl _)
      · intro nothing
        apply keeps_of others
        intro p member gone
        exact absurd ⟨p, member, gone, fun r never => by cases never⟩ nothing
  | false =>
      rw [if_neg Bool.false_ne_true]
      constructor
      · rintro keeps ⟨_, ⟨q, there, mine, kept, shared⟩, p, inside, gone, short⟩
        have spec := extended_iff.mp gone
        apply @loses_of _ _ recurrent _ _ p inside (long p inside) _ keeps
        intro r member same goes_on
        rw [spec.1] at same
        rcases source r member with ⟨old, unextended⟩ | ⟨_, _, apart⟩
        · have less := short r old same unextended
          exact absurd (common_of_front spec.2.1 goes_on) (not_le.mpr less)
        · exact absurd shared (not_le.mpr (apart q there mine kept))
      · intro sound
        apply keeps_of others
        intro p member gone
        have spec := extended_iff.mp gone
        rcases stores with ⟨r, inside, mine, whole⟩ | shared
        · refine ⟨r, inside, mine.trans spec.1.symm, Or.inr ⟨recur, ?_⟩⟩
          rw [whole]
          exact spec.2.1
        · have stand_in : ∃ r ∈ entries, r.key = key ∧ extended key toks r = false ∧
              p.toks.length ≤ commonPrefix r.toks toks := by
            by_contra none_
            apply sound
            refine ⟨uncovered, shared, p, member, gone, fun r inside mine unextended => ?_⟩
            by_contra enough
            exact none_ ⟨r, inside, mine, unextended, not_lt.mp enough⟩
          rcases stand_in with ⟨r, inside, mine, unextended, enough⟩
          refine ⟨r, left r inside unextended, mine.trans spec.1.symm, Or.inr ⟨recur, ?_⟩⟩
          exact front_of_common spec.2.1 enough

/-- Where a publish neither expires nor evicts, exactly a slip loses anything. -/
theorem publish_keeps_iff {pfx : Pfx UInt64 Row Fold} (reached : Reached layouts pfx)
    (recurrent : UInt64 → Bool) {shape : Shape} {key : UInt64} {now : Int}
    {e : Engine V σ κ Row Fold} {hostFold : Fold} {toks : List Nat} (fresh : Unexpired pfx now)
    (roomy : (CacheCall.publish shape key now e hostFold toks :
      CacheCall V σ κ Row Fold Logits).evicted pfx = []) :
    Keeps recurrent pfx.entries (enginePrefixPublish shape key pfx now e hostFold toks).entries ↔
      ¬(Publishes shape pfx.budget e.pos toks ∧
        PublishSlips (recurrent key) key (stored shape pfx.budget toks) pfx.entries) := by
  have long : ∀ p ∈ pfx.entries, pfxMinTokens ≤ p.toks.length :=
    fun p member => (reached.stored p member).long
  have ways := publish_way reached.accounts fresh roomy
  by_cases publishes : Publishes shape pfx.budget e.pos toks
  · rw [and_iff_right publishes]
    rcases ways.1 publishes with ⟨front, back, c, split, before, covers, left⟩ |
        ⟨uncovered, shared, left⟩ | ⟨uncovered, apart, new, mine, whole, left⟩
    · rw [left, split]
      rw [split] at long
      exact covered_loses (fun p member => long p (List.mem_append_left _ member)) before covers
    · have same : Keeps recurrent pfx.entries
          (enginePrefixPublish shape key pfx now e hostFold toks).entries ↔
          Keeps recurrent pfx.entries
            (pfx.entries.filter fun q => !extended key (stored shape pfx.budget toks) q) := by
        unfold Keeps
        apply forall₂_congr
        intro other prompt
        rw [available_held left]
      rw [same]
      apply uncovered_loses long uncovered
      · intro p member unextended
        exact List.mem_filter.mpr ⟨member, by rw [unextended]; rfl⟩
      · intro r member
        rcases List.mem_filter.mp member with ⟨inside, unextended⟩
        rw [Bool.not_eq_true'] at unextended
        exact Or.inl ⟨inside, unextended⟩
      · exact Or.inr shared
    · rw [left]
      apply uncovered_loses long uncovered
      · intro p member unextended
        exact List.mem_cons_of_mem _ (List.mem_filter.mpr ⟨member, by rw [unextended]; rfl⟩)
      · refine List.forall_mem_cons.mpr ⟨Or.inr ⟨mine, whole, apart⟩, fun r member => ?_⟩
        rcases List.mem_filter.mp member with ⟨inside, unextended⟩
        rw [Bool.not_eq_true'] at unextended
        exact Or.inl ⟨inside, unextended⟩
      · exact Or.inl ⟨new, List.mem_cons_self, mine, whole⟩
  · rw [ways.2 publishes]
    exact ⟨fun _ slips => publishes slips.1, fun _ _ _ => le_refl _⟩

/-- Reuse and publishing over the caches that calls of any engines lead to. -/
theorem prefix_reach_iff (budget : Nat) (ttl : Int) {calls : List (CacheCall V σ κ Row Fold Logits)}
    (typed : ∀ call ∈ calls, call.Typed layouts) :
    (∀ (s : Setup V σ κ Row Fold Logits) (key : UInt64) (gpu : Bool) (now : Int)
        (e : Engine V σ κ Row Fold) (toks : List Nat), (s.m.w.recurrent = true → gpu = false) →
      ((enginePrefixReuse s (layouts key).toShape key gpu (runCalls (Pfx.empty budget ttl) calls)
            now e toks).2.2 =
          max (engineRewind s e toks).2 (available s.m.w.recurrent key toks
            (pfxExpire (runCalls (Pfx.empty budget ttl) calls) now).entries) ↔
        ¬ReuseSlips s.m.w.recurrent key toks
          (pfxExpire (runCalls (Pfx.empty budget ttl) calls) now).entries (engineRewind s e toks).2)) ∧
    ∀ (recurrent : UInt64 → Bool) (key : UInt64) (now : Int) (e : Engine V σ κ Row Fold)
        (hostFold : Fold) (toks : List Nat),
      Unexpired (runCalls (Pfx.empty budget ttl) calls) now →
      (CacheCall.publish (layouts key).toShape key now e hostFold toks :
          CacheCall V σ κ Row Fold Logits).evicted (runCalls (Pfx.empty budget ttl) calls) = [] →
      (Keeps recurrent (runCalls (Pfx.empty budget ttl) calls).entries
          (enginePrefixPublish (layouts key).toShape key (runCalls (Pfx.empty budget ttl) calls)
            now e hostFold toks).entries ↔
        ¬(Publishes (layouts key).toShape (runCalls (Pfx.empty budget ttl) calls).budget e.pos toks ∧
          PublishSlips (recurrent key) key
            (stored (layouts key).toShape (runCalls (Pfx.empty budget ttl) calls).budget toks)
            (runCalls (Pfx.empty budget ttl) calls).entries)) := by
  have reached := run_reached (empty_reached budget ttl) typed
  constructor
  · intro s key gpu now e toks cpu
    exact reuse_optimal_iff reached.stored s key cpu now e toks
  · intro recurrent key now e hostFold toks fresh roomy
    exact publish_keeps_iff reached recurrent fresh roomy

/-! ## A longer prompt -/

/-- A layout of one byte a token and one for the fold. -/
def foldLayout : Layout UInt8 UInt8 where
  rowBytes := 1
  blobBytes := 1
  pack := fun rows blob => rows ++ [blob]
  unpack := fun n kv => ((List.range n).map fun i => kv.getD i 0, kv.getD n 0)
  pack_length := fun rows _ => by
    rw [List.length_append]
    unfold entryBytes
    rw [Nat.mul_one]
    rfl
  unpack_length := fun n kv => by rw [List.length_map, List.length_range]
  pack_unpack := fun n kv size => by
    have long : kv.length = n + 1 := by
      rw [size]
      exact congrArg (· + 1) (Nat.mul_one n)
    apply List.ext_getElem
    · rw [List.length_append, List.length_map, List.length_range, long]
      rfl
    · intro i _ inside
      rw [List.getElem_append]
      split
      · rw [List.getElem_map, List.getElem_range, List.getD_eq_getElem _ _ inside]
      · next last =>
        rw [List.length_map, List.length_range] at last
        have here : i = n := by omega
        subst here
        rw [List.getElem_singleton]
        exact List.getD_eq_getElem _ _ inside

/-- An engine behind so many tokens. -/
def enginePast (pos : Nat) : Engine Unit Unit Unit UInt8 UInt8 where
  pos := pos
  hist := fun _ => 3
  kv := { rows := fun _ => 1, fold := 9, snap := none }
  dpos := 0
  dkv := { rows := fun _ => 1, fold := 9, snap := none }
  pendingPos := none
  genMax := 0
  genCount := 0
  gen :=
    { smp := (), cbState := (), calls := [], phase := .think, tagPossible := false, tagMatch := 0,
      closeMatch := 0, pv := (), cdoc := [], cdocRec := true, closing := false, hitStop := false,
      oom := false, preludeMax := 0, preludeCount := 0, preludeExhausted := false }

/-- Sixteen tokens of a model with this key are published. -/
def sharedRun : List (CacheCall Unit Unit Unit UInt8 UInt8 Unit) :=
  [.publish foldLayout.toShape 7 0 (enginePast 16) 9 (List.replicate 16 3)]

/-- The same prompt, and one token more. -/
def longerPrompt : List Nat := List.replicate 16 3 ++ [4]

theorem shared_typed : ∀ call ∈ sharedRun, call.Typed fun _ => foldLayout := by
  intro call member
  rw [List.mem_singleton.mp member]
  refine ⟨rfl, by decide, by decide, fun n bound => ?_⟩
  have small : n ≤ 16 := bound
  show n * 1 + 1 < 2 ^ 64
  omega

theorem shared_entries : (runCalls (Pfx.empty 64 600) sharedRun).entries =
    [{ key := 7, toks := List.replicate 16 3, rows := List.replicate 16 1, blob := 9, bytes := 17,
       used := 0, hits := 0 }] := rfl

/-- A recurrent model of one byte a token. -/
def tinySetup : Setup Unit Unit Unit UInt8 UInt8 Unit where
  m :=
    { w :=
        { recurrent := true, fold0 := 0, row := fun _ _ tok => tok.toUInt8,
          fold := fun _ fold tok => fold + tok.toUInt8, head := fun _ _ _ => () }
      nCtx := 64, nBatch := 32, specBatch := 1, nVocab := 256, verifyOk := false }
  dm := none
  gramFf := false
  grammarDraft := fun _ _ => []
  c := idleConfig

/-- The longer prompt forks the whole of the shorter one; and without recurrent layers its own
entry serves what the shorter one did. -/
theorem longer_prompt_keeps :
    (enginePrefixReuse tinySetup foldLayout.toShape 7 false
        (runCalls (Pfx.empty 64 600) sharedRun) 1 (enginePast 0) longerPrompt).2.2 =
      max (engineRewind tinySetup (enginePast 0) longerPrompt).2 (available true 7 longerPrompt
        (pfxExpire (runCalls (Pfx.empty 64 600) sharedRun) 1).entries) ∧
    available true 7 longerPrompt
      (pfxExpire (runCalls (Pfx.empty 64 600) sharedRun) 1).entries = 16 ∧
    Keeps (fun _ => false) (runCalls (Pfx.empty 64 600) sharedRun).entries
      (enginePrefixPublish foldLayout.toShape 7 (runCalls (Pfx.empty 64 600) sharedRun) 1
        (enginePast 17) 9 longerPrompt).entries := by
  have both := prefix_reach_iff 64 600 shared_typed
  have fresh : Unexpired (runCalls (Pfx.empty 64 600) sharedRun) 1 := by
    unfold Unexpired
    rw [shared_entries]
    decide
  have alive : (pfxExpire (runCalls (Pfx.empty 64 600) sharedRun) 1).entries =
      (runCalls (Pfx.empty 64 600) sharedRun).entries := rfl
  refine ⟨(both.1 tinySetup 7 false 1 (enginePast 0) longerPrompt fun _ => rfl).mpr ?_, by decide,
    (both.2 (fun _ => false) 7 1 (enginePast 17) 9 longerPrompt fresh rfl).mpr ?_⟩
  · rintro ⟨_, ⟨_, q, found, _, part, _⟩, _⟩
    rw [alive, shared_entries] at found
    rw [List.mem_singleton.mp (List.mem_of_getElem? found)] at part
    exact part (by decide)
  · rintro ⟨_, _, ⟨r, member, _, kept, _⟩, _⟩
    rw [shared_entries] at member
    rw [List.mem_singleton.mp member] at kept
    cases kept

/-- With them it does not, and the shorter one is gone, though nothing expired or was evicted. -/
theorem longer_prompt_loses :
    Unexpired (runCalls (Pfx.empty 64 600) sharedRun) 1 ∧
      (CacheCall.publish foldLayout.toShape 7 1 (enginePast 17) 9 longerPrompt :
        CacheCall Unit Unit Unit UInt8 UInt8 Unit).evicted (runCalls (Pfx.empty 64 600) sharedRun) = [] ∧
      ¬Keeps (fun _ => true) (runCalls (Pfx.empty 64 600) sharedRun).entries
        (enginePrefixPublish foldLayout.toShape 7 (runCalls (Pfx.empty 64 600) sharedRun) 1
          (enginePast 17) 9 longerPrompt).entries := by
  have fresh : Unexpired (runCalls (Pfx.empty 64 600) sharedRun) 1 := by
    unfold Unexpired
    rw [shared_entries]
    decide
  refine ⟨fresh, rfl, ?_⟩
  have reached := run_reached (empty_reached 64 600) shared_typed
  rw [@publish_keeps_iff _ _ _ _ _ Unit _ _ reached _ _ _ _ _ _ _ fresh rfl, not_not]
  refine ⟨by unfold Publishes; decide, ?_⟩
  unfold PublishSlips
  rw [if_pos rfl, shared_entries]
  exact ⟨_, List.mem_cons_self, rfl, fun r never => by cases never⟩

end GridcoreRunner.Generation
