import GridcoreRunner.Engine.PrefixCache
import GridcoreRunner.Engine.SpecCoherence
import Mathlib.Tactic.Ring

/-!
# Coherence across engines and the shared cache

A snapshot is sound when its rows and its blob are those of its own tokens. A
fork installs a prefix of a sound snapshot, so the engine stays sound; a publish
adds a sound snapshot unless a recurrent fold is stored under a shorter length
than the one it was folded over.
-/

namespace GridcoreRunner.Generation

set_option autoImplicit false

open GridcoreRunner.Causal

variable {Key V σ κ Row Fold Logits : Type*}

structure EntrySound (w : Weights Nat Row Fold Logits) (p : PfxEntry Key Row Fold) : Prop where
  rows : p.rows = coldRows w p.toks
  blob : w.recurrent = true → p.blob = coldFold w p.toks

/-- Every snapshot of the cache is sound for the weights its key names. -/
def PfxSound (weights : Key → Weights Nat Row Fold Logits) (pfx : Pfx Key Row Fold) : Prop :=
  ∀ p ∈ pfx.entries, EntrySound (weights p.key) p

theorem common_prefix_take (left right : List Nat) :
    left.take (commonPrefix left right) = right.take (commonPrefix left right) := by
  induction left generalizing right with
  | nil => simp [commonPrefix]
  | cons x left induction =>
      cases right with
      | nil => simp [commonPrefix]
      | cons y right =>
          by_cases same : x = y
          · simp [commonPrefix, same, induction right]
          · simp [commonPrefix, same]

theorem common_prefix_le (left right : List Nat) :
    commonPrefix left right ≤ left.length ∧ commonPrefix left right ≤ right.length := by
  induction left generalizing right with
  | nil => simp [commonPrefix]
  | cons x left induction =>
      cases right with
      | nil => simp [commonPrefix]
      | cons y right =>
          have := induction right
          by_cases same : x = y
          · simp [commonPrefix, same, this]
          · simp [commonPrefix, same]

theorem le_common_iff (left right : List Nat) (k : Nat) : k ≤ commonPrefix left right ↔
    k ≤ left.length ∧ k ≤ right.length ∧ left.take k = right.take k := by
  induction left generalizing right k with
  | nil =>
      unfold commonPrefix
      constructor
      · intro nothing
        rw [Nat.le_zero.mp nothing]
        exact ⟨Nat.zero_le _, Nat.zero_le _, by rw [List.take_zero, List.take_zero]⟩
      · exact fun all => all.1
  | cons x left induction =>
      cases right with
      | nil =>
          unfold commonPrefix
          constructor
          · intro nothing
            rw [Nat.le_zero.mp nothing]
            exact ⟨Nat.zero_le _, Nat.zero_le _, by rw [List.take_zero, List.take_zero]⟩
          · exact fun all => all.2.1
      | cons y right =>
          cases k with
          | zero => exact ⟨fun _ => ⟨Nat.zero_le _, Nat.zero_le _, rfl⟩, fun _ => Nat.zero_le _⟩
          | succ k =>
              unfold commonPrefix
              rw [List.take_succ_cons, List.take_succ_cons, List.cons.injEq, List.length_cons,
                List.length_cons, Nat.add_le_add_iff_right, Nat.add_le_add_iff_right]
              by_cases same : x = y
              · rw [if_pos same, Nat.add_le_add_iff_right, induction]
                exact ⟨fun all => ⟨all.1, all.2.1, same, all.2.2⟩,
                  fun all => ⟨all.1, all.2.1, all.2.2.2⟩⟩
              · rw [if_neg same]
                exact ⟨fun never => absurd never (Nat.not_succ_le_zero k),
                  fun all => absurd all.2.2.1 same⟩

section Entries
variable {weights : Key → Weights Nat Row Fold Logits} {pfx : Pfx Key Row Fold}

theorem expire_sound (h : PfxSound weights pfx) (now : Int) :
    PfxSound weights (pfxExpire pfx now) :=
  fun p member => h p (List.mem_of_mem_filter member)

theorem trim_sound (fuel need : Nat) (h : PfxSound weights pfx) :
    PfxSound weights (pfxTrim fuel need pfx) := by
  induction fuel generalizing pfx with
  | zero => exact h
  | succ fuel induction =>
      unfold pfxTrim
      split
      · split
        · exact h
        · apply induction
          intro p member
          exact h p (List.mem_of_mem_eraseIdx member)
      · exact h

theorem configure_sound (h : PfxSound weights pfx) (budget : Nat) (ttl : Int) :
    PfxSound weights (prefixCacheConfigure pfx budget ttl) :=
  trim_sound _ _ h

theorem set_sound (h : PfxSound weights pfx) {index : Nat} {p : PfxEntry Key Row Fold}
    (sound : EntrySound (weights p.key) p) :
    PfxSound weights { pfx with entries := pfx.entries.set index p } := by
  intro q member
  rcases List.mem_or_eq_of_mem_set member with old | rfl
  · exact h q old
  · exact sound

variable [DecidableEq Key]

/-- The entry a fork chooses is stored under the engine's own key and agrees with
the prompt over the matched length. -/
theorem pfx_best_spec (shape : Shape) (key : Key) (toks : List Nat)
    (entries : List (PfxEntry Key Row Fold)) (index : Nat)
    (best : Option (Nat × PfxEntry Key Row Fold × Nat)) {at_ : Nat} {hit : PfxEntry Key Row Fold}
    {matched : Nat} (found : pfxBest shape key toks entries index best = some (at_, hit, matched)) :
    best = some (at_, hit, matched) ∨ (hit ∈ entries ∧ hit.key = key ∧
      matched = commonPrefix hit.toks (toks.take (toks.length - 1))) := by
  induction entries generalizing index best with
  | nil => exact .inl found
  | cons p rest induction =>
      simp only [pfxBest] at found
      split at found
      · next usable =>
        rcases induction _ _ found with same | ⟨member, keyed, eq⟩
        · obtain ⟨-, rfl, rfl⟩ := by simpa using same
          exact .inr ⟨List.mem_cons_self, usable.1, rfl⟩
        · exact .inr ⟨List.mem_cons_of_mem _ member, keyed, eq⟩
      · rcases induction _ _ found with same | ⟨member, keyed, eq⟩
        · exact .inl same
        · exact .inr ⟨List.mem_cons_of_mem _ member, keyed, eq⟩

/-- The snapshots a scan leaves in the cache. -/
def Scan.entries : Scan Key Row Fold → List (PfxEntry Key Row Fold)
  | .covered entries _ => entries
  | .fresh entries _ _ => entries

theorem scan_sound (key : Key) (toks : List Nat) (now : Int) {w : Key → Weights Nat Row Fold Logits}
    (entries : List (PfxEntry Key Row Fold)) (dropped divergeAt : Nat)
    (h : ∀ p ∈ entries, EntrySound (w p.key) p) :
    ∀ p ∈ (pfxScan key toks now entries dropped divergeAt).entries, EntrySound (w p.key) p := by
  induction entries generalizing dropped divergeAt with
  | nil => simp [pfxScan, Scan.entries]
  | cons p rest induction =>
      have head := h p List.mem_cons_self
      have tail : ∀ q ∈ rest, EntrySound (w q.key) q := fun q member =>
        h q (List.mem_cons_of_mem _ member)
      have keep : ∀ scanned : Scan Key Row Fold,
          (∀ q ∈ scanned.entries, EntrySound (w q.key) q) →
          ∀ q ∈ (match scanned with
            | .covered entries dropped => Scan.covered (p :: entries) dropped
            | .fresh entries dropped divergeAt => .fresh (p :: entries) dropped divergeAt).entries,
            EntrySound (w q.key) q := by
        intro scanned sound
        cases scanned <;> exact List.forall_mem_cons.mpr ⟨head, sound⟩
      rw [pfxScan]
      by_cases other : p.key ≠ key
      · rw [if_pos other]
        exact keep _ (induction dropped divergeAt tail)
      · rw [if_neg other]
        split
        · exact List.forall_mem_cons.mpr ⟨⟨head.rows, head.blob⟩, tail⟩
        · split
          · exact induction _ divergeAt tail
          · exact keep _ (induction dropped (max divergeAt (commonPrefix p.toks toks)) tail)

theorem refresh_sound (key : Key) (toks : List Nat) (now : Int)
    {w : Key → Weights Nat Row Fold Logits} {entries kept : List (PfxEntry Key Row Fold)}
    (h : ∀ p ∈ entries, EntrySound (w p.key) p)
    (refreshed : pfxRefresh key toks now entries = some kept) :
    ∀ p ∈ kept, EntrySound (w p.key) p := by
  induction entries generalizing kept with
  | nil => simp [pfxRefresh] at refreshed
  | cons p rest induction =>
      have head := h p List.mem_cons_self
      have tail : ∀ q ∈ rest, EntrySound (w q.key) q := fun q member =>
        h q (List.mem_cons_of_mem _ member)
      simp only [pfxRefresh] at refreshed
      split at refreshed
      · obtain rfl := Option.some.inj refreshed
        exact List.forall_mem_cons.mpr ⟨⟨head.rows, head.blob⟩, tail⟩
      · obtain ⟨later, scanned, rfl⟩ := Option.map_eq_some_iff.mp refreshed
        exact List.forall_mem_cons.mpr ⟨head, induction tail scanned⟩

end Entries

/-! ## Forking -/

section Fork
variable {s : Setup V σ κ Row Fold Logits} {e : Engine V σ κ Row Fold}

theorem rewind_keeps_prompt (e : Engine V σ κ Row Fold) (toks : List Nat) :
    let out := engineRewind s e toks
    out.1.pos = out.2 ∧ out.1.tokens = toks.take out.2 ∧ out.2 ≤ toks.length - 1 := by
  have agree := cells_keep_length e.hist e.pos toks
  have bound := keep_length_lt e.hist e.pos 0 toks
  simp only [engineRewind]
  split
  · split
    · simpa [Engine.tokens] using ⟨agree, bound⟩
    · simp [Engine.tokens]
  · simpa [Engine.tokens] using ⟨agree, bound⟩

theorem install_coherent {key : Key} {toks : List Nat} {hit : PfxEntry Key Row Fold} {best : Nat}
    (gpu : Bool) (kv : Kv Row Fold) (sound : EntrySound s.m.w hit)
    (agree : hit.toks.take best = toks.take best) (inside : best ≤ hit.toks.length)
    (exact_hit : s.m.w.recurrent = true → best = hit.toks.length) (_keyed : hit.key = key) :
    Coherent s.m.w (pfxInstall s gpu kv toks hit best) (toks.take best) := by
  have taken : hit.rows.take best = coldRows s.m.w (toks.take best) := by
    rw [← agree, cold_rows_take, sound.rows]
  have reach : (toks.take best).length = best := by
    rw [← agree, List.length_take_of_le inside]
  have installed : ∀ start : Nat → Row,
      cells (blit start 0 (hit.rows.take best)) (toks.take best).length =
        coldRows s.m.w (toks.take best) := by
    intro start
    rw [taken, ← cold_rows_length s.m.w (toks.take best), cells_blit_zero]
  simp only [pfxInstall]
  by_cases rec : s.m.w.recurrent = true
  · rw [if_pos rec]
    refine ⟨installed _, fun _ _ => ?_, fun _ _ position fold found => by simp at found⟩
    rw [← agree, exact_hit rec, List.take_length]
    exact sound.blob rec
  · rw [if_neg rec]
    exact ⟨installed _, fun yes => absurd yes rec, fun yes => absurd yes rec⟩

variable [DecidableEq Key]

/-- `engine_prefix_reuse` leaves a sound engine that holds exactly the first
`keep` prompt tokens, and a sound cache. -/
theorem prefix_reuse_sound {weights : Key → Weights Nat Row Fold Logits} {pfx : Pfx Key Row Fold}
    (shape : Shape) {key : Key} (gpu : Bool) (now : Int) (toks : List Nat)
    (same : weights key = s.m.w) (cache : PfxSound weights pfx) (h : Sound s e) :
    let out := enginePrefixReuse s shape key gpu pfx now e toks
    PfxSound weights out.1 ∧ Sound s out.2.1 ∧ out.2.1.pos = out.2.2 ∧
      out.2.1.tokens = toks.take out.2.2 ∧ out.2.2 ≤ toks.length - 1 := by
  have rewound := rewind_sound h toks
  have kept := rewind_keeps_prompt (s := s) e toks
  simp only [enginePrefixReuse] at kept ⊢
  generalize engineRewind s e toks = start at rewound kept
  obtain ⟨back, keep⟩ := start
  simp only at rewound kept ⊢
  split
  · exact ⟨cache, rewound, kept⟩
  · have live := expire_sound cache now
    split
    · exact ⟨live, rewound, kept⟩
    · next index hit best found =>
      rcases pfx_best_spec shape key toks _ 0 none found with none | ⟨member, keyed, matched⟩
      · simp at none
      · split
        · next forked =>
          simp only [Bool.and_eq_true, Bool.or_eq_true, Bool.not_eq_true', beq_iff_eq,
            decide_eq_true_eq] at forked
          have bounds := common_prefix_le hit.toks (toks.take (toks.length - 1))
          rw [← matched, List.length_take] at bounds
          have agree := common_prefix_take hit.toks (toks.take (toks.length - 1))
          rw [← matched, List.take_take, Nat.min_eq_left (by omega)] at agree
          have sound : EntrySound s.m.w hit := by
            have := live hit member
            rwa [keyed, same] at this
          have cacheRows := install_coherent gpu back.kv sound agree bounds.1
            (fun rec => by
              rcases forked.1.1 with plain | full
              · simp [rec] at plain
              · exact full.1) keyed
          have reach : (toks.take best).length = best := List.length_take_of_le (by omega)
          have tokens : cells (blit back.hist 0 (toks.take best)) best = toks.take best := by
            have written := cells_blit_zero back.hist (toks.take best)
            rwa [reach] at written
          refine ⟨?_, ⟨?_, Nat.zero_le _, fun _ _ => coherent_nil⟩, rfl, tokens, ?_⟩
          · apply set_sound live
            rw [keyed, same]
            exact ⟨sound.rows, sound.blob⟩
          · rw [Engine.tokens, tokens]
            exact cacheRows
          · show best ≤ _
            omega
        · exact ⟨live, rewound, kept⟩

end Fork

/-! ## Publishing -/

section Publish
variable {s : Setup V σ κ Row Fold Logits} {e : Engine V σ κ Row Fold} [DecidableEq Key]
variable {weights : Key → Weights Nat Row Fold Logits} {pfx : Pfx Key Row Fold}

omit [DecidableEq Key] in
theorem store_sound {key : Key} (shape : Shape) (now : Int) (hostFold : Fold) {toks : List Nat}
    (same : weights key = s.m.w) (cache : PfxSound weights pfx) (rows : RowsOf s.m.w e.kv toks)
    (blob : pfxFits shape pfx toks.length = true → s.m.w.recurrent = true →
      hostFold = coldFold s.m.w toks) :
    PfxSound weights (pfxStore key shape pfx now e.kv hostFold toks) := by
  have trimmed : PfxSound weights (pfxTrimAll (entryBytes shape toks.length) pfx) :=
    trim_sound _ _ cache
  simp only [pfxStore]
  split
  · next fits =>
    intro p member
    rcases List.mem_cons.mp member with rfl | old
    · rw [same]
      exact ⟨rows, blob fits⟩
    · exact trimmed p old
  · exact trimmed

/-- A clamped length is shorter than the prompt: every token is charged the blob. -/
theorem clamp_length_le (shape : Shape) (budget n : Nat) (nonempty : 0 < n) :
    clampLength shape budget n ≤ n := by
  unfold clampLength
  by_cases clamped : (decide (entryBytes shape 1 > 0) &&
      decide (entryBytes shape n > budget / 2)) = true
  · rw [if_pos clamped]
    have above : budget / 2 < entryBytes shape n := by
      simp only [Bool.and_eq_true, decide_eq_true_eq] at clamped
      exact clamped.2
    apply Nat.div_le_of_le_mul
    simp only [entryBytes] at above ⊢
    have charged : shape.blobBytes ≤ n * shape.blobBytes := Nat.le_mul_of_pos_left _ nonempty
    calc budget / 2 ≤ n * shape.rowBytes + n * shape.blobBytes := by omega
      _ = (1 * shape.rowBytes + shape.blobBytes) * n := by ring
  · rw [if_neg clamped]

/-- The first scan reports a divergence only where some entry it keeps diverges. -/
theorem scan_diverges (key : Key) (toks : List Nat) (now : Int)
    (entries : List (PfxEntry Key Row Fold)) (dropped divergeAt : Nat)
    {kept : List (PfxEntry Key Row Fold)} {dropped' found : Nat}
    (scanned : pfxScan key toks now entries dropped divergeAt = .fresh kept dropped' found) :
    found = divergeAt ∨ ∃ p ∈ kept, p.key = key ∧ commonPrefix p.toks toks = found ∧
      found < min p.toks.length toks.length := by
  induction entries generalizing dropped divergeAt kept dropped' found with
  | nil =>
      obtain ⟨-, -, rfl⟩ := by simpa [pfxScan] using scanned
      exact .inl rfl
  | cons p rest induction =>
      have under : ∀ {scan : Scan Key Row Fold},
          (match scan with
            | .covered entries dropped => Scan.covered (p :: entries) dropped
            | .fresh entries dropped divergeAt => .fresh (p :: entries) dropped divergeAt) =
            .fresh kept dropped' found →
          ∃ others, kept = p :: others ∧ scan = .fresh others dropped' found := by
        intro scan same
        cases scan with
        | covered => simp at same
        | fresh entries dropped divergeAt =>
            obtain ⟨rfl, rfl, rfl⟩ := by simpa using same
            exact ⟨entries, rfl, rfl⟩
      rw [pfxScan] at scanned
      by_cases other : p.key ≠ key
      · rw [if_pos other] at scanned
        obtain ⟨others, rfl, inner⟩ := under scanned
        rcases induction _ _ inner with same | ⟨q, member, diverged⟩
        · exact .inl same
        · exact .inr ⟨q, List.mem_cons_of_mem _ member, diverged⟩
      · rw [if_neg other] at scanned
        split at scanned
        · simp at scanned
        · split at scanned
          · exact induction _ _ scanned
          · next diverges =>
            have inside := lt_of_le_of_ne (le_min (common_prefix_le p.toks toks).1
              (common_prefix_le p.toks toks).2) diverges
            obtain ⟨others, rfl, inner⟩ := under scanned
            rcases induction _ _ inner with same | ⟨q, member, diverged⟩
            · rcases Nat.le_total divergeAt (commonPrefix p.toks toks) with le | le
              · rw [Nat.max_eq_right le] at same
                rw [same]
                exact .inr ⟨p, List.mem_cons_self, not_not.mp other, rfl, inside⟩
              · rw [Nat.max_eq_left le] at same
                exact .inl same
            · exact .inr ⟨q, List.mem_cons_of_mem _ member, diverged⟩

theorem refresh_none (key : Key) (toks : List Nat) (now : Int)
    {entries : List (PfxEntry Key Row Fold)} (none_ : pfxRefresh key toks now entries = none) :
    ∀ p ∈ entries, ¬(p.key = key ∧ toks.length ≤ p.toks.length ∧
      commonPrefix p.toks toks = toks.length) := by
  induction entries with
  | nil =>
      intro p never
      cases never
  | cons p rest induction =>
      unfold pfxRefresh at none_
      split at none_
      · cases none_
      · next other =>
        exact List.forall_mem_cons.mpr ⟨other, induction (Option.map_eq_none_iff.mp none_)⟩

/-- What has more than so many tokens in common has the first of them in common. -/
theorem common_prefix_front {left right : List Nat} {k : Nat} (long : k ≤ commonPrefix left right) :
    commonPrefix left (right.take k) = k := by
  have here := (le_common_iff left right k).mp long
  apply Nat.le_antisymm
  · have bound := (common_prefix_le left (right.take k)).2
    rw [List.length_take] at bound
    omega
  · rw [le_common_iff, List.length_take, List.take_take, Nat.min_self]
    exact ⟨here.1, by omega, here.2.2⟩

/-- A divergence that cuts the snapshot is covered by the entry it diverges from. -/
theorem cut_refreshed (key : Key) (toks : List Nat) (now : Int) {storeN : Nat}
    {entries kept : List (PfxEntry Key Row Fold)} {dropped divergeAt : Nat}
    (scanned : pfxScan key (toks.take storeN) now entries 0 0 = .fresh kept dropped divergeAt)
    (cut : pfxMinTokens ≤ divergeAt) :
    divergeAt < storeN ∧ ∃ left, pfxRefresh key (toks.take divergeAt) now kept = some left := by
  rcases scan_diverges key (toks.take storeN) now entries 0 0 scanned with
    none_ | ⟨p, member, keyed, common, inside⟩
  · rw [none_] at cut
    exact absurd cut (by decide)
  · rw [List.length_take] at inside
    refine ⟨by omega, ?_⟩
    cases refreshed : pfxRefresh key (toks.take divergeAt) now kept with
    | some left => exact ⟨left, rfl⟩
    | none =>
        exfalso
        apply refresh_none key _ now refreshed p member
        have front := common_prefix_front (Nat.le_of_eq common.symm)
        rw [List.take_take, Nat.min_eq_left (by omega)] at front
        rw [List.length_take, Nat.min_eq_left (by omega)]
        exact ⟨keyed, by omega, front⟩

/-- What a publish plans: a cache of the same snapshots, and a length no longer
than the prompt, whose rows the engine holds. -/
theorem plan_sound (shape : Shape) (key : Key) (now : Int) (pos : Nat) (toks : List Nat)
    (cache : PfxSound weights pfx) :
    match publishPlan shape key pfx now pos toks with
    | .leave left => PfxSound weights left
    | .store left count => PfxSound weights left ∧ count ≤ toks.length ∧ toks.length ≤ pos ∧
        pfxMinTokens ≤ toks.length := by
  unfold publishPlan
  by_cases refused : (toks.length < pfxMinTokens || decide (pos < toks.length) ||
      pfx.budget == 0) = true
  · simpa only [refused, if_true] using cache
  · simp only [refused, Bool.false_eq_true, if_false]
    simp only [Bool.or_eq_true, decide_eq_true_eq, not_or, Nat.not_lt] at refused
    have live := expire_sound cache now
    have clamped := clamp_length_le shape (pfxExpire pfx now).budget toks.length
      (by have := refused.1.1; simp only [pfxMinTokens] at this; omega)
    have scanned := scan_sound key
      (toks.take (clampLength shape (pfxExpire pfx now).budget toks.length)) now
      (pfxExpire pfx now).entries 0 0 live
    generalize clampLength shape (pfxExpire pfx now).budget toks.length = storeN
      at clamped scanned ⊢
    split_ifs
    · exact live
    · generalize pfxScan key (toks.take storeN) now (pfxExpire pfx now).entries 0 0 = scan
        at scanned
      cases scan with
      | covered entries dropped => exact scanned
      | fresh entries dropped divergeAt =>
          simp only
          split_ifs with cut
          · cases refreshed : pfxRefresh key (toks.take divergeAt) now entries with
            | some kept => exact refresh_sound key _ now scanned refreshed
            | none => exact ⟨scanned, by omega, refused.1.2, refused.1.1⟩
          · exact ⟨scanned, clamped, refused.1.2, refused.1.1⟩

/-- What a recurrent engine may store: its fold is in host memory, it stands at
the end of the prompt, and half the budget holds the snapshot. -/
structure WholeStore (shape : Shape) (gpu : Bool) (pfx : Pfx Key Row Fold) (pos : Nat)
    (toks : List Nat) : Prop where
  host : gpu = false
  atEnd : pos = toks.length
  unclamped : entryBytes shape toks.length ≤ pfx.budget / 2

/-- A recurrent engine that stores a snapshot stores it whole. -/
def PublishOk (s : Setup V σ κ Row Fold Logits) (shape : Shape) (key : Key) (gpu : Bool)
    (pfx : Pfx Key Row Fold) (now : Int) (e : Engine V σ κ Row Fold) (toks : List Nat) : Prop :=
  s.m.w.recurrent = true → ∀ left count,
    publishPlan shape key pfx now e.pos toks = .store left count →
      pfxFits shape left count = true → WholeStore shape gpu pfx e.pos toks

/-- A divergence stores nothing and the clamp did not cut, so the planned length is the
prompt's. -/
theorem whole_store_count {shape : Shape} {key : Key} {gpu : Bool} {now : Int} {pos : Nat}
    {toks : List Nat} {left : Pfx Key Row Fold} {count : Nat}
    (planned : publishPlan shape key pfx now pos toks = .store left count)
    (whole : WholeStore shape gpu pfx pos toks) : count = toks.length := by
  have budget : (pfxExpire pfx now).budget = pfx.budget := rfl
  have clamped : clampLength shape pfx.budget toks.length = toks.length := by
    unfold clampLength
    rw [if_neg]
    simpa using fun _ => whole.unclamped
  unfold publishPlan at planned
  simp only [budget, clamped] at planned
  split_ifs at planned
  cases scanned : pfxScan key (toks.take toks.length) now (pfxExpire pfx now).entries 0 0 with
  | covered =>
      rw [scanned] at planned
      cases planned
  | fresh entries dropped divergeAt =>
      rw [scanned] at planned
      dsimp only at planned
      by_cases cut : pfxMinTokens ≤ divergeAt
      · obtain ⟨shorter, kept, refreshed⟩ := cut_refreshed key toks now scanned cut
        rw [if_pos ⟨cut, shorter⟩, refreshed] at planned
        cases planned
      · rw [if_neg fun both => cut both.1] at planned
        obtain ⟨-, rfl⟩ := by simpa using planned
        rfl

/-- A publish of tokens the engine holds keeps the cache sound. -/
theorem publish_sound {shape : Shape} {key : Key} {gpu : Bool} {now : Int} {hostFold : Fold}
    {toks : List Nat} (same : weights key = s.m.w) (cache : PfxSound weights pfx) (h : Sound s e)
    (held : toks.length ≤ e.pos → toks = e.tokens.take toks.length)
    (host : gpu = false → hostFold = e.kv.fold)
    (whole : PublishOk s shape key gpu pfx now e toks) :
    PfxSound weights (enginePrefixPublish shape key pfx now e hostFold toks) := by
  have planned := plan_sound shape key now e.pos toks cache
  unfold enginePrefixPublish
  cases plan : publishPlan shape key pfx now e.pos toks with
  | leave left =>
      rw [plan] at planned
      exact planned
  | store left count =>
      rw [plan] at planned
      obtain ⟨left_sound, le, inside, long⟩ := planned
      have rows : RowsOf s.m.w e.kv toks := by
        rw [held inside]
        exact h.target.rows.take toks.length
      apply store_sound shape now hostFold same left_sound (rows.take count)
      intro fits rec
      rw [List.length_take_of_le le] at fits
      have stored := whole rec left count plan fits
      have full : toks = e.tokens := by
        have := held inside
        rwa [← stored.atEnd, ← e.tokens_length, List.take_length] at this
      rw [whole_store_count plan stored, List.take_length, host stored.host, full]
      apply h.target.fold rec
      rw [← full]
      intro empty
      simp [empty, pfxMinTokens] at long

end Publish

end GridcoreRunner.Generation
