import GridcoreRunner.Engine.PrefixCoherence
import GridcoreRunner.Engine.PrefixFile
import Mathlib.Algebra.Order.BigOperators.Group.List

/-!
# Runs of the shared cache

The books of the cache over any calls of any engines: the bytes are those of the
entries and within the budget, the entries are few, two that were published under one key
differ early, and none that was forked is evicted for space while an unproven one is left.
-/

namespace GridcoreRunner.Generation

set_option autoImplicit false

variable {Key V σ κ Row Fold Logits : Type*}

/-- What the books are about: an entry without its clock and its hits. -/
structure Held (Key : Type*) where
  key : Key
  toks : List Nat
  bytes : Nat
  load : Option Nat

def PfxEntry.held (p : PfxEntry Key Row Fold) : Held Key :=
  { key := p.key, toks := p.toks, bytes := p.bytes, load := p.load }

def heldBytes (entries : List (PfxEntry Key Row Fold)) : Nat := (entries.map fun p => p.bytes).sum

/-- Two entries that were published under one key differ within sixteen tokens. -/
def Apart (p q : Held Key) : Prop :=
  p.load = none → q.load = none → p.key = q.key → commonPrefix p.toks q.toks < pfxMinTokens

structure Books (pfx : Pfx Key Row Fold) : Prop where
  total : pfx.bytes = heldBytes pfx.entries
  few : pfx.entries.length ≤ pfxMaxEntries
  apart : (pfx.entries.map PfxEntry.held).Pairwise Apart

/-- The books are in order and the bytes are in the budget. -/
structure Accounts (pfx : Pfx Key Row Fold) : Prop extends Books pfx where
  within : pfx.bytes ≤ pfx.budget

theorem held_bytes_of {entries other : List (PfxEntry Key Row Fold)}
    (same : entries.map PfxEntry.held = other.map PfxEntry.held) : heldBytes entries = heldBytes other := by
  have bytes : ∀ list : List (PfxEntry Key Row Fold),
      heldBytes list = ((list.map PfxEntry.held).map Held.bytes).sum := by
    intro list
    rw [List.map_map]
    rfl
  rw [bytes, bytes, same]

theorem held_bytes_filter (entries : List (PfxEntry Key Row Fold))
    (test : PfxEntry Key Row Fold → Bool) :
    heldBytes (entries.filter test) + heldBytes (entries.filter fun p => !test p) =
      heldBytes entries := by
  unfold heldBytes
  induction entries with
  | nil => rfl
  | cons p rest induction =>
      cases chosen : test p with
      | true =>
          rw [List.filter_cons_of_pos chosen, List.filter_cons_of_neg (by rw [chosen]; decide)]
          simp only [List.map_cons, List.sum_cons]
          omega
      | false =>
          rw [List.filter_cons_of_neg (by rw [chosen]; decide), List.filter_cons_of_pos (by rw [chosen]; rfl)]
          simp only [List.map_cons, List.sum_cons]
          omega

/-- Books of fewer entries. -/
theorem Books.sublist {pfx after : Pfx Key Row Fold} (books : Books pfx)
    (fewer : (after.entries.map PfxEntry.held).Sublist (pfx.entries.map PfxEntry.held))
    (total : after.bytes = heldBytes after.entries) : Books after := by
  refine ⟨total, ?_, books.apart.sublist fewer⟩
  have size := fewer.length_le
  rw [List.length_map, List.length_map] at size
  exact size.trans books.few

theorem held_bytes_sublist {entries other : List (PfxEntry Key Row Fold)}
    (fewer : (entries.map PfxEntry.held).Sublist (other.map PfxEntry.held)) :
    heldBytes entries ≤ heldBytes other := by
  have bytes := (fewer.map Held.bytes).sum_le_sum fun _ _ => Nat.zero_le _
  rw [List.map_map, List.map_map] at bytes
  exact bytes

theorem Accounts.sublist {pfx after : Pfx Key Row Fold} (accounts : Accounts pfx)
    (fewer : (after.entries.map PfxEntry.held).Sublist (pfx.entries.map PfxEntry.held))
    (total : after.bytes = heldBytes after.entries) (same : after.budget = pfx.budget) :
    Accounts after := by
  refine ⟨accounts.toBooks.sublist fewer total, ?_⟩
  rw [total, same]
  have less := held_bytes_sublist fewer
  have whole := accounts.total
  have within := accounts.within
  omega

/-! ## Expiry and room -/

theorem expire_accounts {pfx : Pfx Key Row Fold} (accounts : Accounts pfx) (now : Int) :
    Accounts (pfxExpire pfx now) := by
  apply accounts.sublist
  · exact (List.filter_sublist).map _
  · have parts := held_bytes_filter pfx.entries fun p => decide (now - p.used > pfx.ttl)
    have whole := accounts.total
    show pfx.bytes - heldBytes (pfx.entries.filter fun p => decide (now - p.used > pfx.ttl)) = _
    unfold pfxExpire
    dsimp only
    omega
  · rfl

theorem oldest_none {proven : Bool} (entries : List (PfxEntry Key Row Fold)) (index : Nat)
    (best : Option (Nat × Int)) (none_ : pfxOldest proven entries index best = none) :
    best = none ∧ ∀ p ∈ entries, decide (p.hits > 0) ≠ proven := by
  induction entries generalizing index best with
  | nil => exact ⟨none_, fun p never => by cases never⟩
  | cons p rest induction =>
      unfold pfxOldest at none_
      by_cases other : (decide (p.hits > 0) != proven) = true
      · rw [if_pos other] at none_
        have later := induction _ _ none_
        exact ⟨later.1, List.forall_mem_cons.mpr ⟨bne_iff_ne.mp other, later.2⟩⟩
      · rw [if_neg other] at none_
        exfalso
        cases best with
        | none => cases (induction _ _ none_).1
        | some hit =>
            dsimp only at none_
            split at none_
            · cases (induction _ _ none_).1
            · cases (induction _ _ none_).1

/-- The oldest of a class is of that class. -/
theorem oldest_some {proven : Bool} (entries : List (PfxEntry Key Row Fold)) (index : Nat)
    (best : Option (Nat × Int)) {at_ : Nat} {used : Int}
    (found : pfxOldest proven entries index best = some (at_, used)) :
    best = some (at_, used) ∨ ∃ offset p, at_ = index + offset ∧ entries[offset]? = some p ∧
      decide (p.hits > 0) = proven := by
  induction entries generalizing index best with
  | nil => exact Or.inl found
  | cons p rest induction =>
      have later : (∃ offset q, at_ = index + 1 + offset ∧ rest[offset]? = some q ∧
          decide (q.hits > 0) = proven) → ∃ offset q, at_ = index + offset ∧
            (p :: rest)[offset]? = some q ∧ decide (q.hits > 0) = proven := by
        rintro ⟨offset, q, place, there, class_⟩
        exact ⟨offset + 1, q, by omega, there, class_⟩
      unfold pfxOldest at found
      by_cases other : (decide (p.hits > 0) != proven) = true
      · rw [if_pos other] at found
        exact (induction _ _ found).imp_right later
      · rw [if_neg other] at found
        have class_ : decide (p.hits > 0) = proven := by
          rw [bne_iff_ne, not_not] at other
          exact other
        have here : pfxOldest proven rest (index + 1) (some (index, p.used)) = some (at_, used) →
            ∃ offset q, at_ = index + offset ∧ (p :: rest)[offset]? = some q ∧
              decide (q.hits > 0) = proven := by
          intro found
          rcases induction _ _ found with same | inside
          · cases same
            exact ⟨0, p, rfl, rfl, class_⟩
          · exact later inside
        cases best with
        | none => exact Or.inr (here found)
        | some hit =>
            dsimp only at found
            split at found
            · exact Or.inr (here found)
            · exact (induction _ _ found).imp_right later

/-- What one turn of `pfx_trim` chooses: an entry of the cache, proven only if all are. -/
theorem victim_spec {entries : List (PfxEntry Key Row Fold)} (some_ : entries ≠ []) :
    ∃ at_ used p, (pfxOldest false entries 0 none).or (pfxOldest true entries 0 none) =
      some (at_, used) ∧ entries[at_]? = some p ∧ (p.hits > 0 → ∀ q ∈ entries, q.hits > 0) := by
  cases unproven : pfxOldest false entries 0 none with
  | some hit =>
      rcases hit with ⟨at_, used⟩
      rcases oldest_some entries 0 none unproven with never | ⟨offset, p, place, there, class_⟩
      · cases never
      · rw [Nat.zero_add] at place
        rw [place]
        refine ⟨offset, used, p, rfl, there, fun forked => ?_⟩
        exact absurd forked (of_decide_eq_false class_)
  | none =>
      have all : ∀ q ∈ entries, q.hits > 0 := by
        intro q member
        have other := (oldest_none entries 0 none unproven).2 q member
        rw [Ne, Bool.not_eq_false] at other
        exact of_decide_eq_true other
      cases proven : pfxOldest true entries 0 none with
      | none =>
          exfalso
          cases entries with
          | nil => exact some_ rfl
          | cons p rest =>
              have other := (oldest_none (p :: rest) 0 none proven).2 p List.mem_cons_self
              exact other (decide_eq_true (all p List.mem_cons_self))
      | some hit =>
          rcases hit with ⟨at_, used⟩
          rcases oldest_some entries 0 none proven with never | ⟨offset, p, place, there, _⟩
          · cases never
          · rw [Nat.zero_add] at place
            rw [place]
            exact ⟨offset, used, p, rfl, there, fun _ => all⟩

/-- An entry that was evicted for space, and the entries of the cache at that moment. -/
structure Evicted (Key Row Fold : Type*) where
  victim : PfxEntry Key Row Fold
  resident : List (PfxEntry Key Row Fold)

/-- The evictions of `pfx_trim`. -/
def pfxTrimmed : Nat → Nat → Pfx Key Row Fold → List (Evicted Key Row Fold)
  | 0, _, _ => []
  | fuel + 1, need, pfx =>
      if !pfx.entries.isEmpty &&
          (decide (pfx.bytes + need > pfx.budget) || decide (pfx.entries.length ≥ pfxMaxEntries)) then
        match (pfxOldest false pfx.entries 0 none).or (pfxOldest true pfx.entries 0 none) with
        | none => []
        | some (victim, _) =>
            ((pfx.entries[victim]?).map fun p => { victim := p, resident := pfx.entries }).toList ++
              pfxTrimmed fuel need { pfx with
                entries := pfx.entries.eraseIdx victim
                bytes := pfx.bytes - ((pfx.entries[victim]?).map (·.bytes)).getD 0 }
      else []

/-- Where nothing is evicted, `pfx_trim` leaves the cache as it is. -/
theorem untrimmed {fuel need : Nat} {pfx : Pfx Key Row Fold}
    (nothing : pfxTrimmed fuel need pfx = []) : pfxTrim fuel need pfx = pfx := by
  cases fuel with
  | zero => rfl
  | succ fuel =>
      unfold pfxTrimmed at nothing
      unfold pfxTrim
      split
      · next crowded =>
        exfalso
        rw [if_pos crowded] at nothing
        have some_ : pfx.entries ≠ [] := by
          intro none_
          rw [none_] at crowded
          cases crowded
        rcases victim_spec some_ with ⟨at_, used, p, chosen, there, _⟩
        rw [chosen] at nothing
        dsimp only at nothing
        rw [there] at nothing
        cases nothing
      · rfl

theorem held_bytes_erase {entries : List (PfxEntry Key Row Fold)} {at_ : Nat}
    {p : PfxEntry Key Row Fold} (there : entries[at_]? = some p) :
    heldBytes (entries.eraseIdx at_) + p.bytes = heldBytes entries := by
  unfold heldBytes
  induction entries generalizing at_ with
  | nil => cases there
  | cons q rest induction =>
      cases at_ with
      | zero =>
          cases there
          simp only [List.eraseIdx_cons_zero, List.map_cons, List.sum_cons]
          omega
      | succ at_ =>
          have tail := induction there
          simp only [List.eraseIdx_cons_succ, List.map_cons, List.sum_cons]
          omega

/-- Room is made, or nothing is left; no entry comes in, and the budget stays. -/
theorem trim_spec (fuel need : Nat) {pfx : Pfx Key Row Fold} (enough : pfx.entries.length ≤ fuel)
    (total : pfx.bytes = heldBytes pfx.entries) :
    (pfxTrim fuel need pfx).entries.Sublist pfx.entries ∧
      (pfxTrim fuel need pfx).budget = pfx.budget ∧ (pfxTrim fuel need pfx).ttl = pfx.ttl ∧
      (pfxTrim fuel need pfx).bytes = heldBytes (pfxTrim fuel need pfx).entries ∧
        ((pfxTrim fuel need pfx).entries = [] ∨
          (pfxTrim fuel need pfx).bytes + need ≤ pfx.budget ∧
            (pfxTrim fuel need pfx).entries.length < pfxMaxEntries) := by
  induction fuel generalizing pfx with
  | zero =>
      refine ⟨List.Sublist.refl _, rfl, rfl, total, Or.inl ?_⟩
      exact List.eq_nil_of_length_eq_zero (Nat.le_zero.mp enough)
  | succ fuel induction =>
      unfold pfxTrim
      by_cases crowded : (!pfx.entries.isEmpty && (decide (pfx.bytes + need > pfx.budget) ||
          decide (pfx.entries.length ≥ pfxMaxEntries))) = true
      · rw [if_pos crowded]
        have some_ : pfx.entries ≠ [] := by
          intro nothing
          rw [nothing] at crowded
          cases crowded
        rcases victim_spec some_ with ⟨at_, used, p, chosen, there, _⟩
        rw [chosen]
        dsimp only
        rw [there]
        have inside : at_ < pfx.entries.length := (List.getElem?_eq_some_iff.mp there).1
        have erased := held_bytes_erase there
        have shorter : (pfx.entries.eraseIdx at_).length + 1 = pfx.entries.length := by
          rw [List.length_eraseIdx_of_lt inside]
          omega
        have later := @induction { pfx with
            entries := pfx.entries.eraseIdx at_
            bytes := pfx.bytes - ((some p).map (·.bytes)).getD 0 }
          (by show (pfx.entries.eraseIdx at_).length ≤ fuel; omega)
          (by show pfx.bytes - p.bytes = heldBytes (pfx.entries.eraseIdx at_); omega)
        exact ⟨later.1.trans (List.eraseIdx_sublist _ _), later.2⟩
      · rw [if_neg crowded]
        refine ⟨List.Sublist.refl _, rfl, rfl, total, ?_⟩
        by_cases nothing : pfx.entries = []
        · exact Or.inl nothing
        · right
          simp only [Bool.and_eq_true, Bool.not_eq_true', List.isEmpty_eq_false_iff, Bool.or_eq_true,
            decide_eq_true_eq, not_and, not_or, not_lt] at crowded
          have room := crowded nothing
          exact ⟨room.1, by omega⟩

theorem trim_accounts {pfx : Pfx Key Row Fold} (books : Books pfx) (need : Nat) :
    Accounts (pfxTrimAll need pfx) ∧ (pfxTrimAll need pfx).budget = pfx.budget ∧
      ((pfxTrimAll need pfx).bytes + need ≤ pfx.budget →
        (pfxTrimAll need pfx).entries.length < pfxMaxEntries) := by
  have trimmed := trim_spec pfx.entries.length need (le_refl _) books.total
  unfold pfxTrimAll
  refine ⟨⟨books.sublist (trimmed.1.map _) trimmed.2.2.2.1, ?_⟩, trimmed.2.1, ?_⟩
  · rw [trimmed.2.1]
    rcases trimmed.2.2.2.2 with nothing | room
    · rw [trimmed.2.2.2.1, nothing]
      exact Nat.zero_le _
    · omega
  · intro _
    rcases trimmed.2.2.2.2 with nothing | room
    · rw [nothing]
      exact Nat.succ_pos 63
    · exact room.2

/-! ## What publish keeps -/

theorem common_prefix_comm (left right : List Nat) :
    commonPrefix left right = commonPrefix right left := by
  apply Nat.le_antisymm
  · have here := (le_common_iff left right _).mp (le_refl _)
    exact (le_common_iff right left _).mpr ⟨here.2.1, here.1, here.2.2.symm⟩
  · have here := (le_common_iff right left _).mp (le_refl _)
    exact (le_common_iff left right _).mpr ⟨here.2.1, here.1, here.2.2.symm⟩

section
variable [DecidableEq Key]

/-- The prompt strictly extends the entry, which a publish of the prompt drops. -/
def extended (key : Key) (toks : List Nat) (p : PfxEntry Key Row Fold) : Bool :=
  decide (p.key = key ∧ commonPrefix p.toks toks = min p.toks.length toks.length ∧
    p.toks.length < toks.length)

/-- The entry holds all of the prompt. -/
def Covers (key : Key) (toks : List Nat) (p : PfxEntry Key Row Fold) : Prop :=
  p.key = key ∧ commonPrefix p.toks toks = min p.toks.length toks.length ∧
    toks.length ≤ p.toks.length

/-- What the first scan leaves where no entry covers the prompt. -/
structure ScanFresh (key : Key) (toks : List Nat) (entries : List (PfxEntry Key Row Fold))
    (dropped divergeAt : Nat) (kept : List (PfxEntry Key Row Fold)) (dropped' found : Nat) :
    Prop where
  stayed : kept = entries.filter fun p => !extended key toks p
  gone : dropped' = dropped + heldBytes (entries.filter (extended key toks))
  uncovered : ∀ p ∈ entries, ¬Covers key toks p
  least : divergeAt ≤ found
  below : ∀ p ∈ kept, p.key = key → commonPrefix p.toks toks ≤ found

/-- The entry stays in front of what the scan of the others leaves. -/
def Scan.behind (p : PfxEntry Key Row Fold) : Scan Key Row Fold → Scan Key Row Fold
  | .covered entries dropped => .covered (p :: entries) dropped
  | .fresh entries dropped divergeAt => .fresh (p :: entries) dropped divergeAt

theorem scan_fresh (key : Key) (toks : List Nat) (now : Int)
    (entries : List (PfxEntry Key Row Fold)) (dropped divergeAt : Nat)
    {kept : List (PfxEntry Key Row Fold)} {dropped' found : Nat}
    (scanned : pfxScan key toks now entries dropped divergeAt = .fresh kept dropped' found) :
    ScanFresh key toks entries dropped divergeAt kept dropped' found := by
  induction entries generalizing dropped divergeAt kept dropped' found with
  | nil =>
      unfold pfxScan at scanned
      cases scanned
      exact ⟨rfl, rfl, (fun p never => by cases never), le_refl _, fun p never => by cases never⟩
  | cons p rest induction =>
      have agree := common_prefix_le p.toks toks
      -- an entry that stays, whatever it has in common with the prompt
      have stays : ∀ {divergeAt' : Nat}, extended key toks p = false → ¬Covers key toks p →
          divergeAt ≤ divergeAt' → (p.key = key → commonPrefix p.toks toks ≤ divergeAt') →
          (pfxScan key toks now rest dropped divergeAt').behind p = .fresh kept dropped' found →
          ScanFresh key toks (p :: rest) dropped divergeAt kept dropped' found := by
        intro divergeAt' unextended uncovered more below same
        cases later : pfxScan key toks now rest dropped divergeAt' with
        | covered entries gone =>
            rw [later, Scan.behind] at same
            cases same
        | fresh entries gone at_ =>
            rw [later, Scan.behind] at same
            cases same
            have inner := induction dropped divergeAt' later
            refine ⟨?_, ?_, ?_, more.trans inner.least, ?_⟩
            · rw [List.filter_cons_of_pos (by rw [unextended]; rfl), ← inner.stayed]
            · rw [List.filter_cons_of_neg (by rw [unextended]; decide)]
              exact inner.gone
            · exact List.forall_mem_cons.mpr ⟨uncovered, inner.uncovered⟩
            · exact List.forall_mem_cons.mpr ⟨fun keyed => (below keyed).trans inner.least,
                inner.below⟩
      unfold pfxScan at scanned
      dsimp only at scanned
      by_cases other : p.key ≠ key
      · rw [if_pos other] at scanned
        apply stays _ _ (le_refl _) (fun keyed => absurd keyed other) scanned
        · exact decide_eq_false fun all => other all.1
        · exact fun covers => other covers.1
      · rw [if_neg other] at scanned
        have keyed : p.key = key := not_not.mp other
        by_cases full : commonPrefix p.toks toks = min p.toks.length toks.length
        · by_cases long : p.toks.length ≥ toks.length
          · rw [if_pos ⟨full, long⟩] at scanned
            cases scanned
          · rw [if_neg fun both => long both.2, if_pos full] at scanned
            have inner := induction _ _ scanned
            have gone : extended key toks p = true :=
              decide_eq_true ⟨keyed, full, not_le.mp long⟩
            refine ⟨?_, ?_, ?_, inner.least, inner.below⟩
            · rw [List.filter_cons_of_neg (by rw [gone]; decide)]
              exact inner.stayed
            · rw [List.filter_cons_of_pos gone, inner.gone]
              unfold heldBytes
              rw [List.map_cons, List.sum_cons]
              omega
            · exact List.forall_mem_cons.mpr ⟨fun covers => long covers.2.2, inner.uncovered⟩
        · rw [if_neg fun both => full both.1, if_neg full] at scanned
          apply stays _ _ (Nat.le_max_left _ _) (fun _ => Nat.le_max_right _ _) scanned
          · exact decide_eq_false fun all => full all.2.1
          · exact fun covers => full covers.2.1

/-- What the first scan leaves where an entry covers the prompt. -/
theorem scan_covered (key : Key) (toks : List Nat) (now : Int)
    (entries : List (PfxEntry Key Row Fold)) (dropped divergeAt : Nat)
    {kept : List (PfxEntry Key Row Fold)} {dropped' : Nat}
    (scanned : pfxScan key toks now entries dropped divergeAt = .covered kept dropped') :
    ∃ front p back, entries = front ++ p :: back ∧ (∀ q ∈ front, ¬Covers key toks q) ∧
      Covers key toks p ∧
      kept = (front.filter fun q => !extended key toks q) ++ { p with used := now } :: back ∧
        dropped' = dropped + heldBytes (front.filter (extended key toks)) := by
  induction entries generalizing dropped divergeAt kept dropped' with
  | nil =>
      unfold pfxScan at scanned
      cases scanned
  | cons p rest induction =>
      have stays : ∀ {divergeAt' : Nat}, extended key toks p = false → ¬Covers key toks p →
          (pfxScan key toks now rest dropped divergeAt').behind p = .covered kept dropped' →
          ∃ front q back, p :: rest = front ++ q :: back ∧ (∀ r ∈ front, ¬Covers key toks r) ∧
            Covers key toks q ∧
            kept = (front.filter fun q => !extended key toks q) ++ { q with used := now } :: back ∧
              dropped' = dropped + heldBytes (front.filter (extended key toks)) := by
        intro divergeAt' unextended uncovered same
        cases later : pfxScan key toks now rest dropped divergeAt' with
        | fresh entries gone at_ =>
            rw [later, Scan.behind] at same
            cases same
        | covered entries gone =>
            rw [later, Scan.behind] at same
            cases same
            rcases induction dropped divergeAt' later with
              ⟨front, q, back, split, before, covers, kept, sum⟩
            refine ⟨p :: front, q, back, by rw [split]; rfl,
              List.forall_mem_cons.mpr ⟨uncovered, before⟩, covers, ?_, ?_⟩
            · rw [List.filter_cons_of_pos (by rw [unextended]; rfl), kept]
              rfl
            · rw [List.filter_cons_of_neg (by rw [unextended]; decide)]
              exact sum
      unfold pfxScan at scanned
      dsimp only at scanned
      by_cases other : p.key ≠ key
      · rw [if_pos other] at scanned
        exact stays (decide_eq_false fun all => other all.1) (fun covers => other covers.1) scanned
      · rw [if_neg other] at scanned
        have keyed : p.key = key := not_not.mp other
        by_cases full : commonPrefix p.toks toks = min p.toks.length toks.length
        · by_cases long : p.toks.length ≥ toks.length
          · rw [if_pos ⟨full, long⟩] at scanned
            cases scanned
            exact ⟨[], p, rest, rfl, (fun q never => by cases never), ⟨keyed, full, long⟩, rfl, rfl⟩
          · rw [if_neg fun both => long both.2, if_pos full] at scanned
            rcases induction _ _ scanned with ⟨front, q, back, split, before, covers, kept, sum⟩
            have gone : extended key toks p = true := decide_eq_true ⟨keyed, full, not_le.mp long⟩
            refine ⟨p :: front, q, back, by rw [split]; rfl, List.forall_mem_cons.mpr
              ⟨fun covers => long covers.2.2, before⟩, covers, ?_, ?_⟩
            · rw [List.filter_cons_of_neg (by rw [gone]; decide)]
              exact kept
            · rw [List.filter_cons_of_pos gone, sum]
              unfold heldBytes
              rw [List.map_cons, List.sum_cons]
              omega
        · rw [if_neg fun both => full both.1, if_neg full] at scanned
          exact stays (decide_eq_false fun all => full all.2.1) (fun covers => full covers.2.1) scanned

theorem refresh_held (key : Key) (toks : List Nat) (now : Int)
    {entries kept : List (PfxEntry Key Row Fold)}
    (refreshed : pfxRefresh key toks now entries = some kept) :
    kept.map PfxEntry.held = entries.map PfxEntry.held := by
  induction entries generalizing kept with
  | nil => cases refreshed
  | cons p rest induction =>
      unfold pfxRefresh at refreshed
      split at refreshed
      · cases refreshed
        rfl
      · rcases Option.map_eq_some_iff.mp refreshed with ⟨later, found, same⟩
        rw [← same, List.map_cons, List.map_cons, induction found]

/-- What a publish plans keeps the books; what it stores differs early from all it keeps. -/
theorem plan_accounts (shape : Shape) (key : Key) (now : Int) (pos : Nat) (toks : List Nat)
    {pfx : Pfx Key Row Fold} (accounts : Accounts pfx) :
    match publishPlan shape key pfx now pos toks with
    | .leave left => Accounts left
    | .store left count => Accounts left ∧ ∀ p ∈ left.entries, p.key = key →
        commonPrefix p.toks (toks.take count) < pfxMinTokens := by
  unfold publishPlan
  by_cases refused : (toks.length < pfxMinTokens || decide (pos < toks.length) ||
      pfx.budget == 0) = true
  · rw [if_pos refused]
    exact accounts
  rw [if_neg refused]
  have live := expire_accounts accounts now
  dsimp only
  generalize pfxExpire pfx now = pfx at live
  generalize clampLength shape pfx.budget toks.length = storeN
  by_cases short : storeN < pfxMinTokens
  · rw [if_pos short]
    exact live
  rw [if_neg short]
  cases scanned : pfxScan key (toks.take storeN) now pfx.entries 0 0 with
  | covered entries dropped =>
      rcases scan_covered key _ now pfx.entries 0 0 scanned with
        ⟨front, p, back, split, _, _, kept, sum⟩
      have parts := held_bytes_filter front (extended key (toks.take storeN))
      have whole := live.total
      have sums : ∀ (list : List (PfxEntry Key Row Fold)) (q : PfxEntry Key Row Fold),
          heldBytes (list ++ q :: back) = heldBytes list + (q.bytes + heldBytes back) := by
        intro list q
        unfold heldBytes
        rw [List.map_append, List.sum_append, List.map_cons, List.sum_cons]
      apply live.sublist
      · rw [kept, split, List.map_append, List.map_append, List.map_cons, List.map_cons]
        exact ((List.filter_sublist).map _).append (List.Sublist.refl _)
      · rw [split, sums] at whole
        show pfx.bytes - dropped = heldBytes entries
        rw [kept, sums, sum]
        show _ = heldBytes (front.filter fun q => !extended key (toks.take storeN) q) +
          (p.bytes + heldBytes back)
        omega
      · rfl
  | fresh entries dropped divergeAt =>
      have spec := scan_fresh key _ now pfx.entries 0 0 scanned
      have parts := held_bytes_filter pfx.entries (extended key (toks.take storeN))
      have whole := live.total
      have left : Accounts { pfx with entries, bytes := pfx.bytes - dropped } := by
        apply live.sublist
        · show (entries.map PfxEntry.held).Sublist _
          rw [spec.stayed]
          exact (List.filter_sublist).map _
        · show pfx.bytes - dropped = heldBytes entries
          rw [spec.stayed, spec.gone]
          omega
        · rfl
      dsimp only
      by_cases cut : divergeAt ≥ pfxMinTokens ∧ divergeAt < storeN
      · rw [if_pos cut]
        rcases (cut_refreshed key toks now scanned cut.1).2 with ⟨kept, refreshed⟩
        rw [refreshed]
        have same := refresh_held key _ now refreshed
        apply left.sublist
        · show (kept.map PfxEntry.held).Sublist _
          rw [same]
        · show pfx.bytes - dropped = heldBytes kept
          rw [held_bytes_of same]
          exact left.total
        · rfl
      · rw [if_neg cut]
        refine ⟨left, fun p member keyed => ?_⟩
        have early : divergeAt < pfxMinTokens := by
          by_contra late
          exact cut ⟨not_lt.mp late, (cut_refreshed key toks now scanned (not_lt.mp late)).1⟩
        exact lt_of_le_of_lt (spec.below p member keyed) early

/-- The cache that a publish plans with. -/
def Plan.cache : Plan Key Row Fold → Pfx Key Row Fold
  | .leave pfx => pfx
  | .store pfx _ => pfx

theorem refresh_member (key : Key) (toks : List Nat) (now : Int)
    {entries kept : List (PfxEntry Key Row Fold)}
    (refreshed : pfxRefresh key toks now entries = some kept) :
    ∀ q ∈ kept, ∃ p ∈ entries, q = p ∨ q = { p with used := now } := by
  induction entries generalizing kept with
  | nil => cases refreshed
  | cons p rest induction =>
      unfold pfxRefresh at refreshed
      split at refreshed
      · cases refreshed
        refine List.forall_mem_cons.mpr ⟨⟨p, List.mem_cons_self, Or.inr rfl⟩, fun q member => ?_⟩
        exact ⟨q, List.mem_cons_of_mem _ member, Or.inl rfl⟩
      · rcases Option.map_eq_some_iff.mp refreshed with ⟨later, found, same⟩
        rw [← same]
        refine List.forall_mem_cons.mpr ⟨⟨p, List.mem_cons_self, Or.inl rfl⟩, fun q member => ?_⟩
        rcases induction found q member with ⟨other, inside, either⟩
        exact ⟨other, List.mem_cons_of_mem _ inside, either⟩

/-- A publish plans with entries it found, some of them refreshed, and stores sixteen
tokens of its prompt at least. -/
theorem plan_entries (shape : Shape) (key : Key) (now : Int) (pos : Nat) (toks : List Nat)
    (pfx : Pfx Key Row Fold) :
    (publishPlan shape key pfx now pos toks).cache.ttl = pfx.ttl ∧
      (∀ q ∈ (publishPlan shape key pfx now pos toks).cache.entries,
        ∃ p ∈ pfx.entries, q = p ∨ q = { p with used := now }) ∧
      ∀ left count, publishPlan shape key pfx now pos toks = .store left count →
        pfxMinTokens ≤ count ∧ count ≤ toks.length := by
  have itself : ∀ q ∈ pfx.entries, ∃ p ∈ pfx.entries, q = p ∨ q = { p with used := now } :=
    fun q member => ⟨q, member, Or.inl rfl⟩
  unfold publishPlan
  by_cases refused : (toks.length < pfxMinTokens || decide (pos < toks.length) ||
      pfx.budget == 0) = true
  · rw [if_pos refused]
    exact ⟨rfl, itself, fun left count never => by cases never⟩
  rw [if_neg refused]
  have some_ : 0 < toks.length := by
    by_contra nothing
    rw [show toks.length = 0 by omega] at refused
    exact refused rfl
  have clamped := clamp_length_le shape (pfxExpire pfx now).budget toks.length some_
  have live : ∀ q ∈ (pfxExpire pfx now).entries, q ∈ pfx.entries := List.filter_sublist.subset
  rw [show pfx.ttl = (pfxExpire pfx now).ttl from rfl]
  dsimp only
  generalize pfxExpire pfx now = alive at live clamped
  generalize clampLength shape alive.budget toks.length = storeN at clamped
  by_cases short : storeN < pfxMinTokens
  · rw [if_pos short]
    exact ⟨rfl, fun q member => itself q (live q member), fun left count never => by cases never⟩
  rw [if_neg short]
  cases scanned : pfxScan key (toks.take storeN) now alive.entries 0 0 with
  | covered entries dropped =>
      rcases scan_covered key _ now alive.entries 0 0 scanned with ⟨front, p, back, split, _, _, kept, _⟩
      refine ⟨rfl, fun q member => ?_, fun left count never => by cases never⟩
      rw [show _ = _ from kept] at member
      rcases List.mem_append.mp member with before | here
      · refine itself q (live q ?_)
        rw [split]
        exact List.mem_append_left _ (List.mem_of_mem_filter before)
      · rcases List.mem_cons.mp here with touched | behind
        · refine ⟨p, live p ?_, Or.inr touched⟩
          rw [split]
          exact List.mem_append_right _ List.mem_cons_self
        · refine itself q (live q ?_)
          rw [split]
          exact List.mem_append_right _ (List.mem_cons_of_mem _ behind)
  | fresh entries dropped divergeAt =>
      have spec := scan_fresh key _ now alive.entries 0 0 scanned
      have kept : ∀ q ∈ entries, q ∈ pfx.entries := by
        intro q member
        rw [spec.stayed] at member
        exact live q (List.mem_of_mem_filter member)
      dsimp only
      by_cases cut : divergeAt ≥ pfxMinTokens ∧ divergeAt < storeN
      · rw [if_pos cut]
        rcases (cut_refreshed key toks now scanned cut.1).2 with ⟨left, refreshed⟩
        rw [refreshed]
        refine ⟨rfl, fun q member => ?_, fun left count never => by cases never⟩
        rcases refresh_member key _ now refreshed q member with ⟨p, inside, either⟩
        exact ⟨p, kept p inside, either⟩
      · rw [if_neg cut]
        refine ⟨rfl, fun q member => itself q (kept q member), fun left count same => ?_⟩
        cases same
        exact ⟨not_lt.mp short, clamped⟩

end

/-! ## The calls -/

/-- An entry is linked where there is room for it. -/
theorem link_accounts {pfx : Pfx Key Row Fold} (books : Books pfx) {p : PfxEntry Key Row Fold}
    (apart : p.load = none → ∀ q ∈ pfx.entries, q.load = none → q.key = p.key →
      commonPrefix q.toks p.toks < pfxMinTokens)
    (fits : (pfxTrimAll p.bytes pfx).bytes + p.bytes ≤ pfx.budget) :
    Accounts { pfxTrimAll p.bytes pfx with
      entries := p :: (pfxTrimAll p.bytes pfx).entries
      bytes := (pfxTrimAll p.bytes pfx).bytes + p.bytes } := by
  have room := trim_accounts books p.bytes
  have fewer := (trim_spec pfx.entries.length p.bytes (le_refl _) books.total).1
  refine ⟨⟨?_, room.2.2 fits, ?_⟩, ?_⟩
  · have total := room.1.total
    unfold heldBytes at total ⊢
    rw [List.map_cons, List.sum_cons]
    show (pfxTrimAll p.bytes pfx).bytes + p.bytes = _
    omega
  · show ((p :: (pfxTrimAll p.bytes pfx).entries).map PfxEntry.held).Pairwise Apart
    rw [List.map_cons, List.pairwise_cons]
    refine ⟨?_, room.1.apart⟩
    intro held member
    rcases List.mem_map.mp member with ⟨q, inside, same⟩
    rw [← same]
    intro published other keyed
    rw [common_prefix_comm]
    exact apart published q (fewer.subset inside) other keyed.symm
  · show (pfxTrimAll p.bytes pfx).bytes + p.bytes ≤ (pfxTrimAll p.bytes pfx).budget
    rw [room.2.1]
    exact fits

section
variable [DecidableEq Key]

theorem publish_accounts {pfx : Pfx Key Row Fold} (accounts : Accounts pfx) (shape : Shape)
    (key : Key) (now : Int) (e : Engine V σ κ Row Fold) (hostFold : Fold) (toks : List Nat) :
    Accounts (enginePrefixPublish shape key pfx now e hostFold toks) := by
  have planned := plan_accounts shape key now e.pos toks accounts
  unfold enginePrefixPublish
  cases plan : publishPlan shape key pfx now e.pos toks with
  | leave left =>
      rw [plan] at planned
      exact planned
  | store left count =>
      rw [plan] at planned
      rcases planned with ⟨books, early⟩
      dsimp only
      unfold pfxStore
      dsimp only
      split
      · next fits =>
        unfold pfxFits at fits
        rw [decide_eq_true_eq] at fits
        exact @link_accounts _ _ _ left books.toBooks
          { key, toks := toks.take count, rows := Causal.cells e.kv.rows (toks.take count).length,
            blob := hostFold, bytes := entryBytes shape (toks.take count).length,
            used := now, hits := 0 } (fun _ q member _ keyed => early q member keyed) fits
      · exact (trim_accounts books.toBooks _).1

/-- Behind a publish there are entries from before, some of them refreshed, and the new one. -/
theorem publish_entries {pfx : Pfx Key Row Fold} (accounts : Accounts pfx) (shape : Shape)
    (key : Key) (now : Int) (e : Engine V σ κ Row Fold) (hostFold : Fold) (toks : List Nat) :
    (enginePrefixPublish shape key pfx now e hostFold toks).ttl = pfx.ttl ∧
      ∀ q ∈ (enginePrefixPublish shape key pfx now e hostFold toks).entries,
        (∃ p ∈ pfx.entries, q = p ∨ q = { p with used := now }) ∨
          ∃ count, pfxMinTokens ≤ count ∧ count ≤ toks.length ∧
            q = { key, toks := toks.take count, rows := Causal.cells e.kv.rows (toks.take count).length,
                  blob := hostFold, bytes := entryBytes shape (toks.take count).length,
                  used := now, hits := 0 } := by
  have planned := plan_entries shape key now e.pos toks pfx
  have books := plan_accounts shape key now e.pos toks accounts
  unfold enginePrefixPublish
  cases plan : publishPlan shape key pfx now e.pos toks with
  | leave left =>
      rw [plan] at planned
      exact ⟨planned.1, fun q member => Or.inl (planned.2.1 q member)⟩
  | store left count =>
      rw [plan] at planned books
      have length := planned.2.2 left count rfl
      have trimmed := trim_spec _ (entryBytes shape (toks.take count).length) (le_refl _) books.1.total
      have older : ∀ q ∈ (pfxTrimAll (entryBytes shape (toks.take count).length) left).entries,
          ∃ p ∈ pfx.entries, q = p ∨ q = { p with used := now } :=
        fun q member => planned.2.1 q (trimmed.1.subset member)
      dsimp only
      unfold pfxStore
      dsimp only
      split
      · refine ⟨trimmed.2.2.1.trans planned.1, List.forall_mem_cons.mpr ⟨?_, fun q member => ?_⟩⟩
        · exact Or.inr ⟨count, length.1, length.2, rfl⟩
        · exact Or.inl (older q member)
      · exact ⟨trimmed.2.2.1.trans planned.1, fun q member => Or.inl (older q member)⟩

/-- An entry that `engine_prefix_reuse` may look at, and what it has in common with the prompt. -/
def Usable (shape : Shape) (key : Key) (p : PfxEntry Key Row Fold) : Prop :=
  p.key = key ∧ p.bytes = entryBytes shape p.toks.length

def matchLength (toks : List Nat) (p : PfxEntry Key Row Fold) : Nat :=
  commonPrefix p.toks (toks.take (toks.length - 1))

/-- The choice of `engine_prefix_reuse`: what it had, or the first longest match. -/
structure BestHit (shape : Shape) (key : Key) (toks : List Nat)
    (entries : List (PfxEntry Key Row Fold)) (index floor : Nat)
    (hit : Nat × PfxEntry Key Row Fold × Nat) : Prop where
  place : ∃ offset, hit.1 = index + offset ∧ entries[offset]? = some hit.2.1 ∧
    ∀ earlier < offset, ∀ p, entries[earlier]? = some p → Usable shape key p →
      matchLength toks p < hit.2.2
  usable : Usable shape key hit.2.1
  matched : hit.2.2 = matchLength toks hit.2.1
  above : floor < hit.2.2
  longest : ∀ p ∈ entries, Usable shape key p → matchLength toks p ≤ hit.2.2

theorem best_hit (shape : Shape) (key : Key) (toks : List Nat)
    (entries : List (PfxEntry Key Row Fold)) (index : Nat)
    (best : Option (Nat × PfxEntry Key Row Fold × Nat)) :
    (pfxBest shape key toks entries index best = best ∧ ∀ p ∈ entries, Usable shape key p →
        matchLength toks p ≤ (best.map fun hit => hit.2.2).getD 0) ∨
      ∃ hit, pfxBest shape key toks entries index best = some hit ∧
        BestHit shape key toks entries index ((best.map fun hit => hit.2.2).getD 0) hit := by
  induction entries generalizing index best with
  | nil => exact Or.inl ⟨rfl, fun p never => by cases never⟩
  | cons p rest induction =>
      generalize floored : (best.map fun hit => hit.2.2).getD 0 = floor
      have later : ∀ {base : Nat} {hit : Nat × PfxEntry Key Row Fold × Nat}, floor ≤ base →
          (Usable shape key p → matchLength toks p ≤ base) →
          BestHit shape key toks rest (index + 1) base hit →
            BestHit shape key toks (p :: rest) index floor hit := by
        intro base hit more head inner
        rcases inner.place with ⟨offset, place, there, first⟩
        refine ⟨⟨offset + 1, by omega, there, ?_⟩, inner.usable, inner.matched,
          lt_of_le_of_lt more inner.above, ?_⟩
        · intro earlier before q found usable
          cases earlier with
          | zero =>
              cases found
              exact lt_of_le_of_lt (head usable) inner.above
          | succ earlier => exact first earlier (by omega) q found usable
        · refine List.forall_mem_cons.mpr ⟨fun usable => ?_, inner.longest⟩
          exact (head usable).trans (Nat.le_of_lt inner.above)
      unfold pfxBest
      dsimp only
      rw [floored]
      by_cases better : p.key = key ∧ p.bytes = entryBytes shape p.toks.length ∧
          commonPrefix p.toks (toks.take (toks.length - 1)) > floor
      · rw [if_pos better]
        right
        rcases induction (index + 1) (some (index, p, matchLength toks p)) with ⟨same, least⟩ |
            ⟨hit, found, inner⟩
        · refine ⟨(index, p, matchLength toks p), same, ⟨0, rfl, rfl, ?_⟩, ⟨better.1, better.2.1⟩, rfl,
            better.2.2, List.forall_mem_cons.mpr ⟨fun _ => le_refl _, least⟩⟩
          intro earlier before
          exact absurd before (Nat.not_lt_zero _)
        · exact ⟨hit, found, later (Nat.le_of_lt better.2.2) (fun _ => le_refl _) inner⟩
      · rw [if_neg better]
        have head : Usable shape key p → matchLength toks p ≤ floor := by
          intro usable
          by_contra more
          exact better ⟨usable.1, usable.2, not_le.mp more⟩
        rcases induction (index + 1) best with ⟨same, least⟩ | ⟨hit, found, inner⟩
        · rw [floored] at least
          exact Or.inl ⟨same, List.forall_mem_cons.mpr ⟨head, least⟩⟩
        · rw [floored] at inner
          exact Or.inr ⟨hit, found, later (le_refl _) head inner⟩

/-- Behind a reuse there are entries from before, one of them perhaps forked. -/
theorem reuse_entries (pfx : Pfx Key Row Fold) (s : Setup V σ κ Row Fold Logits) (shape : Shape)
    (key : Key) (gpu : Bool) (now : Int) (e : Engine V σ κ Row Fold) (toks : List Nat) :
    (enginePrefixReuse s shape key gpu pfx now e toks).1.ttl = pfx.ttl ∧
      ∀ q ∈ (enginePrefixReuse s shape key gpu pfx now e toks).1.entries,
        ∃ p ∈ pfx.entries, q = p ∨ q = { p with used := now, hits := p.hits + 1 } := by
  have live : ∀ q ∈ (pfxExpire pfx now).entries, ∃ p ∈ pfx.entries,
      q = p ∨ q = { p with used := now, hits := p.hits + 1 } :=
    fun q member => ⟨q, List.filter_sublist.subset member, Or.inl rfl⟩
  unfold enginePrefixReuse
  dsimp only
  split
  · exact ⟨rfl, fun q member => ⟨q, member, Or.inl rfl⟩⟩
  · rcases best_hit shape key toks (pfxExpire pfx now).entries 0 none with ⟨none_, _⟩ |
        ⟨⟨index, hit, best⟩, found, inner⟩
    · rw [none_]
      exact ⟨rfl, live⟩
    · rw [found]
      dsimp only
      split
      · refine ⟨rfl, fun q member => ?_⟩
        rcases List.mem_or_eq_of_mem_set member with old | same
        · exact live q old
        · rcases inner.place with ⟨offset, _, there, _⟩
          have inside : hit ∈ (pfxExpire pfx now).entries := List.mem_of_getElem? there
          exact ⟨hit, List.filter_sublist.subset inside, Or.inr same⟩
      · exact ⟨rfl, live⟩

omit [DecidableEq Key] in
theorem held_set {entries : List (PfxEntry Key Row Fold)} {index : Nat} {p q : PfxEntry Key Row Fold}
    (there : entries[index]? = some p) (same : q.held = p.held) :
    (entries.set index q).map PfxEntry.held = entries.map PfxEntry.held := by
  rcases List.getElem?_eq_some_iff.mp there with ⟨inside, value⟩
  have bound : index < (entries.map PfxEntry.held).length := by
    rw [List.length_map]
    exact inside
  have held : (entries.map PfxEntry.held)[index] = q.held := by
    rw [List.getElem_map, value, same]
  rw [List.map_set, ← held, List.set_getElem_self]

theorem reuse_accounts {pfx : Pfx Key Row Fold} (accounts : Accounts pfx)
    (s : Setup V σ κ Row Fold Logits) (shape : Shape) (key : Key) (gpu : Bool) (now : Int)
    (e : Engine V σ κ Row Fold) (toks : List Nat) :
    Accounts (enginePrefixReuse s shape key gpu pfx now e toks).1 := by
  have live := expire_accounts accounts now
  unfold enginePrefixReuse
  dsimp only
  split
  · exact accounts
  · rcases best_hit shape key toks (pfxExpire pfx now).entries 0 none with ⟨none_, _⟩ |
        ⟨⟨index, hit, best⟩, found, inner⟩
    · rw [none_]
      exact live
    · rw [found]
      dsimp only
      split
      · rcases inner.place with ⟨offset, place, there, _⟩
        have here : (pfxExpire pfx now).entries[index]? = some hit := by
          rw [show index = offset by rw [← Nat.zero_add offset]; exact place]
          exact there
        have same : ((pfxExpire pfx now).entries.set index
            { hit with used := now, hits := hit.hits + 1 }).map PfxEntry.held =
              (pfxExpire pfx now).entries.map PfxEntry.held := held_set here rfl
        apply live.sublist
        · show (((pfxExpire pfx now).entries.set index _).map PfxEntry.held).Sublist _
          rw [same]
        · show (pfxExpire pfx now).bytes = heldBytes ((pfxExpire pfx now).entries.set index _)
          rw [held_bytes_of same]
          exact live.total
        · rfl
      · exact live

end

theorem configure_accounts {pfx : Pfx Key Row Fold} (accounts : Accounts pfx) (budget : Nat)
    (ttl : Int) : Accounts (prefixCacheConfigure pfx budget ttl) := by
  have books : Books { pfx with budget, ttl } := ⟨accounts.total, accounts.few, accounts.apart⟩
  exact (trim_accounts books 0).1

theorem clear_accounts (pfx : Pfx UInt64 Row Fold) : Accounts (prefixCacheClear pfx) :=
  ⟨⟨rfl, Nat.zero_le _, List.Pairwise.nil⟩, Nat.zero_le _⟩

theorem link_record_accounts {pfx : Pfx UInt64 Row Fold} (accounts : Accounts pfx)
    (layout : Layout Row Fold) (key : UInt64) (now : Int) (load : Nat) (r : Record) :
    Accounts (linkRecord layout key now load pfx r) := by
  unfold linkRecord
  dsimp only
  split
  · exact accounts
  · split
    · exact (trim_accounts accounts.toBooks _).1
    · next fits =>
      rw [(trim_accounts accounts.toBooks r.kv.length).2.1, not_lt] at fits
      exact @link_accounts _ _ _ pfx accounts.toBooks
        { key := r.key, toks := r.toks, rows := (layout.unpack r.toks.length r.kv).1,
          blob := (layout.unpack r.toks.length r.kv).2, bytes := r.kv.length,
          used := now, hits := 0, load := some load } (fun never => by cases never) fits

theorem load_records_accounts (layout : Layout Row Fold) (key : UInt64) (now : Int) (load count : Nat)
    {pfx : Pfx UInt64 Row Fold} (accounts : Accounts pfx) (digest : UInt64) (file : Bytes) :
    Accounts (loadRecords layout key now load count pfx digest file).1 := by
  induction count generalizing pfx digest file with
  | zero => exact accounts
  | succ count induction =>
      unfold loadRecords
      cases readRecord file with
      | none => exact accounts
      | some read => exact induction (link_record_accounts accounts layout key now load read.1) _ _

theorem load_accounts (layout : Layout Row Fold) (key : UInt64) (now : Int) (load : Nat)
    {pfx : Pfx UInt64 Row Fold} (accounts : Accounts pfx) (file : Bytes) {after : Pfx UInt64 Row Fold}
    {whole : Bool} (loaded : prefixCacheLoad layout key now load pfx file = some (after, whole)) :
    Accounts after := by
  unfold prefixCacheLoad at loaded
  rcases Option.bind_eq_some_iff.mp loaded with ⟨⟨magic, file⟩, _, loaded⟩
  dsimp only at loaded
  split at loaded
  · cases loaded
  · rcases Option.map_eq_some_iff.mp loaded with ⟨⟨count, file⟩, _, same⟩
    have linked := load_records_accounts layout key now load (Gguf.leNat count) accounts fnvBasis file
    dsimp only at same
    split at same
    · next pfx' records =>
      rw [records] at linked
      cases same
      exact linked
    · next pfx' digest rest records =>
      rw [records] at linked
      cases same
      exact linked

/-- A call of any engine. A load that fails is its first critical section, and clears the
cache in a later one. -/
inductive CacheCall (V σ κ Row Fold Logits : Type*)
  | reuse (s : Setup V σ κ Row Fold Logits) (shape : Shape) (key : UInt64) (gpu : Bool) (now : Int)
      (e : Engine V σ κ Row Fold) (toks : List Nat)
  | publish (shape : Shape) (key : UInt64) (now : Int) (e : Engine V σ κ Row Fold) (hostFold : Fold)
      (toks : List Nat)
  | configure (budget : Nat) (ttl : Int)
  | clear
  | load (layout : Layout Row Fold) (key : UInt64) (now : Int) (number : Nat) (file : Bytes)

def CacheCall.run (pfx : Pfx UInt64 Row Fold) : CacheCall V σ κ Row Fold Logits → Pfx UInt64 Row Fold
  | .reuse s shape key gpu now e toks => (enginePrefixReuse s shape key gpu pfx now e toks).1
  | .publish shape key now e hostFold toks => enginePrefixPublish shape key pfx now e hostFold toks
  | .configure budget ttl => prefixCacheConfigure pfx budget ttl
  | .clear => prefixCacheClear pfx
  | .load layout key now number file =>
      ((prefixCacheLoad layout key now number pfx file).map Prod.fst).getD pfx

/-- What the records of a file evict. -/
def recordsEvicted (layout : Layout Row Fold) (key : UInt64) (now : Int) (load : Nat) :
    Nat → Pfx UInt64 Row Fold → Bytes → List (Evicted UInt64 Row Fold)
  | 0, _, _ => []
  | count + 1, pfx, file =>
      match readRecord file with
      | none => []
      | some (r, file) =>
          (if r.key ≠ key ∨ r.kv.length ≠ entryBytes layout.toShape r.toks.length then []
            else pfxTrimmed pfx.entries.length r.kv.length pfx) ++
            recordsEvicted layout key now load count (linkRecord layout key now load pfx r) file

/-- What a call evicts for space: the evictions of every `pfx_trim` it makes. -/
def CacheCall.evicted (pfx : Pfx UInt64 Row Fold) :
    CacheCall V σ κ Row Fold Logits → List (Evicted UInt64 Row Fold)
  | .reuse _ _ _ _ _ _ _ => []
  | .publish shape key now e _ toks =>
      match publishPlan shape key pfx now e.pos toks with
      | .leave _ => []
      | .store pfx count =>
          pfxTrimmed pfx.entries.length (entryBytes shape (toks.take count).length) pfx
  | .configure budget ttl => pfxTrimmed pfx.entries.length 0 { pfx with budget, ttl }
  | .clear => []
  | .load layout key now number file =>
      if (prefixCacheLoad layout key now number pfx file).isNone then []
      else recordsEvicted layout key now number (Gguf.leNat ((file.drop 16).take 4)) pfx (file.drop 20)

theorem call_accounts {pfx : Pfx UInt64 Row Fold} (accounts : Accounts pfx)
    (call : CacheCall V σ κ Row Fold Logits) : Accounts (call.run pfx) := by
  cases call with
  | reuse s shape key gpu now e toks => exact reuse_accounts accounts s shape key gpu now e toks
  | publish shape key now e hostFold toks => exact publish_accounts accounts shape key now e hostFold toks
  | configure budget ttl => exact configure_accounts accounts budget ttl
  | clear => exact clear_accounts pfx
  | load layout key now number file =>
      unfold CacheCall.run
      dsimp only
      cases loaded : prefixCacheLoad layout key now number pfx file with
      | none => exact accounts
      | some read => exact load_accounts layout key now number accounts file loaded

/-- The cache before the first call. -/
def Pfx.empty (budget : Nat) (ttl : Int) : Pfx UInt64 Row Fold := { entries := [], bytes := 0, budget, ttl }

/-- The cache behind calls of any engines, in this order. -/
def runCalls (pfx : Pfx UInt64 Row Fold) (calls : List (CacheCall V σ κ Row Fold Logits)) :
    Pfx UInt64 Row Fold := calls.foldl CacheCall.run pfx

end GridcoreRunner.Generation
