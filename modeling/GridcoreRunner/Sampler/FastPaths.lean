import GridcoreRunner.Sampler.Sample
import Mathlib.Algebra.BigOperators.Group.List.Basic
import Mathlib.Algebra.Order.BigOperators.Group.List
import Mathlib.Data.List.GetD
import Mathlib.Data.List.TakeWhile
import Mathlib.Tactic.FieldSimp
import Mathlib.Tactic.Linarith
import Mathlib.Tactic.Positivity
import Mathlib.Tactic.Ring

/-!
# The fast paths of the sampler

The selection puts the front of the sorted vocabulary in front, and a head is such a front.
What the filters and the roulette walk do on it is what they do on the whole, but for a
min-p floor that lies below the whole head: there the full sort cuts and renormalises, and
the head does not.
-/

namespace GridcoreRunner.Sampling

set_option autoImplicit false

open GridcoreRunner.Causal

variable {K : Type*} [Field K]

/-! ## Masses -/

theorem mass_cons (v : Cand K) (c : List (Cand K)) : mass (v :: c) = v.p + mass c := by
  unfold mass
  rw [List.map_cons, List.sum_cons]

theorem mass_scale (d : K) (c : List (Cand K)) : mass (scaleBy d c) = mass c / d := by
  induction c with
  | nil => exact (zero_div d).symm
  | cons v c induction =>
      unfold scaleBy at induction ⊢
      rw [List.map_cons, mass_cons, mass_cons, induction, add_div]

theorem scale_take (d : K) (c : List (Cand K)) (m : Nat) :
    scaleBy d (c.take m) = (scaleBy d c).take m := List.map_take

theorem scale_length (d : K) (c : List (Cand K)) : (scaleBy d c).length = c.length := List.length_map _

variable [LinearOrder K]

/-- Every candidate has a share. -/
def AllPos (c : List (Cand K)) : Prop := ∀ v ∈ c, 0 < v.p

section
variable [IsStrictOrderedRing K]

theorem mass_nonneg {c : List (Cand K)} (pos : AllPos c) : 0 ≤ mass c := by
  unfold mass
  apply List.sum_nonneg
  intro p member
  rcases List.mem_map.mp member with ⟨v, inside, same⟩
  rw [← same]
  exact le_of_lt (pos v inside)

theorem mass_pos {c : List (Cand K)} (pos : AllPos c) (some_ : c ≠ []) : 0 < mass c := by
  cases c with
  | nil => exact absurd rfl some_
  | cons v c =>
      rw [mass_cons]
      have head := pos v List.mem_cons_self
      have tail : 0 ≤ mass c := mass_nonneg fun w member => pos w (List.mem_cons_of_mem _ member)
      exact add_pos_of_pos_of_nonneg head tail

theorem AllPos.scale {c : List (Cand K)} (pos : AllPos c) {d : K} (some_ : 0 < d) :
    AllPos (scaleBy d c) := by
  intro v member
  rcases List.mem_map.mp member with ⟨w, inside, same⟩
  rw [← same]
  exact div_pos (pos w inside) some_

omit [IsStrictOrderedRing K] in
theorem AllPos.take {c : List (Cand K)} (pos : AllPos c) (m : Nat) : AllPos (c.take m) :=
  fun v member => pos v (List.mem_of_mem_take member)

/-! ## The walk -/

theorem walk_scale {d : K} (some_ : 0 < d) (r cum : K) (c : List (Cand K)) :
    walk r (cum / d) (scaleBy d c) = walk (r * d) cum c := by
  induction c generalizing cum with
  | nil => rfl
  | cons v c induction =>
      unfold scaleBy at induction ⊢
      rw [List.map_cons]
      unfold walk
      dsimp only
      simp only [← add_div, lt_div_iff₀ some_, induction]

omit [IsStrictOrderedRing K] in
theorem walk_append {r cum : K} {front : List (Cand K)} (back : List (Cand K)) {id : Nat}
    (found : walk r cum front = some id) : walk r cum (front ++ back) = some id := by
  induction front generalizing cum with
  | nil => cases found
  | cons v front induction =>
      rw [List.cons_append]
      unfold walk at found ⊢
      split
      · next hit =>
        rw [if_pos hit] at found
        exact found
      · next miss =>
        rw [if_neg miss] at found
        exact induction found

/-- The walk ends with a candidate just if the draw is below the whole mass. -/
theorem walk_hits {r cum : K} {c : List (Cand K)} (pos : AllPos c) (start : cum ≤ r) :
    (walk r cum c).isSome = true ↔ r < cum + mass c := by
  induction c generalizing cum with
  | nil =>
      unfold walk mass
      rw [List.map_nil, List.sum_nil, add_zero]
      exact ⟨(fun never => by cases never), fun less => absurd less (not_lt.mpr start)⟩
  | cons v c induction =>
      have rest : AllPos c := fun w member => pos w (List.mem_cons_of_mem _ member)
      unfold walk
      rw [mass_cons, ← add_assoc]
      by_cases hit : r < cum + v.p
      · rw [if_pos hit]
        have tail := mass_nonneg rest
        exact ⟨fun _ => lt_of_lt_of_le hit (le_add_of_nonneg_right tail), fun _ => rfl⟩
      · rw [if_neg hit]
        exact induction rest (not_lt.mp hit)

omit [IsStrictOrderedRing K] in
theorem walk_member {r cum : K} {c : List (Cand K)} {id : Nat} (found : walk r cum c = some id) :
    id ∈ c.map fun v => v.id := by
  induction c generalizing cum with
  | nil => cases found
  | cons v c induction =>
      unfold walk at found
      split at found
      · cases found
        exact List.mem_cons_self
      · exact List.mem_cons_of_mem _ (induction found)

/-- Two draws end at the same candidate unless a partial mass lies between them. -/
theorem walk_same_iff {a b cum : K} {c : List (Cand K)} (pos : AllPos c)
    (once : (c.map fun v => v.id).Nodup) (le : b ≤ a) :
    walk a cum c = walk b cum c ↔
      ¬∃ i < c.length, b < cum + mass (c.take (i + 1)) ∧ cum + mass (c.take (i + 1)) ≤ a := by
  induction c generalizing cum with
  | nil => exact ⟨(fun _ ⟨i, never, _⟩ => by cases never), fun _ => rfl⟩
  | cons v c induction =>
      have rest : AllPos c := fun w member => pos w (List.mem_cons_of_mem _ member)
      rw [List.map_cons, List.nodup_cons] at once
      have first : mass ((v :: c).take 1) = v.p := by
        rw [List.take_succ_cons, List.take_zero, mass_cons]
        exact add_zero v.p
      have later : ∀ i, cum + mass ((v :: c).take (i + 1 + 1)) = cum + v.p + mass (c.take (i + 1)) := by
        intro i
        rw [List.take_succ_cons, mass_cons, add_assoc]
      unfold walk
      by_cases low : b < cum + v.p
      · rw [if_pos low]
        by_cases high : a < cum + v.p
        · rw [if_pos high]
          refine ⟨fun _ => ?_, fun _ => rfl⟩
          rintro ⟨i, _, _, less⟩
          have more : cum + v.p ≤ cum + mass ((v :: c).take (i + 1)) := by
            rw [List.take_succ_cons, mass_cons]
            have tail : 0 ≤ mass (c.take i) := mass_nonneg (rest.take i)
            rw [← add_assoc]
            exact le_add_of_nonneg_right tail
          exact absurd (lt_of_lt_of_le high more) (not_lt.mpr less)
        · rw [if_neg high]
          constructor
          · intro same
            exact absurd (walk_member same) once.1
          · intro none_
            exact absurd ⟨0, Nat.succ_pos _, by rw [first]; exact low, by
              rw [first]
              exact not_lt.mp high⟩ none_
      · have high : ¬a < cum + v.p := fun less => low (lt_of_le_of_lt le less)
        rw [if_neg low, if_neg high, induction rest once.2]
        apply not_congr
        constructor
        · rintro ⟨i, inside, above, below⟩
          exact ⟨i + 1, Nat.succ_lt_succ inside, by rw [later]; exact above, by rw [later]; exact below⟩
        · rintro ⟨i, inside, above, below⟩
          cases i with
          | zero =>
              rw [first] at above
              exact absurd above low
          | succ i =>
              rw [later] at above below
              exact ⟨i, Nat.lt_of_succ_lt_succ inside, above, below⟩

/-! ## The filters -/

omit [IsStrictOrderedRing K] in
/-- A front that carries the bound is cut where the whole is. -/
theorem mass_cut_take (bound : K) {cum : K} {c : List (Cand K)} {m : Nat} (some_ : 0 < m)
    (enough : bound ≤ cum + mass (c.take m)) :
    massCut bound cum (c.take m) = massCut bound cum c ∧
      (massCut bound cum c ≤ m ∨ c.length ≤ m) := by
  induction c generalizing cum m with
  | nil =>
      rw [List.take_nil]
      exact ⟨rfl, Or.inr (Nat.zero_le _)⟩
  | cons v c induction =>
      cases m with
      | zero => exact absurd some_ (lt_irrefl 0)
      | succ m =>
          rw [List.take_succ_cons] at enough ⊢
          rw [mass_cons, ← add_assoc] at enough
          unfold massCut
          by_cases reached : cum + v.p ≥ bound
          · rw [if_pos reached, if_pos reached]
            exact ⟨rfl, Or.inl (Nat.succ_le_succ (Nat.zero_le m))⟩
          · rw [if_neg reached, if_neg reached]
            have more : 0 < m := by
              by_contra nothing
              rw [show m = 0 by omega, List.take_zero] at enough
              apply reached
              have none_ : mass ([] : List (Cand K)) = 0 := rfl
              rw [none_, add_zero] at enough
              exact enough
            have later := induction more enough
            rw [later.1, List.length_cons]
            exact ⟨rfl, later.2.imp Nat.succ_le_succ Nat.succ_le_succ⟩

omit [IsStrictOrderedRing K] in
theorem mass_cut_pos (bound cum : K) {c : List (Cand K)} (some_ : c ≠ []) :
    0 < massCut bound cum c := by
  cases c with
  | nil => exact absurd rfl some_
  | cons v c =>
      unfold massCut
      split
      · exact Nat.one_pos
      · exact Nat.succ_pos _

omit [IsStrictOrderedRing K] in
/-- Behind a front that carries `top_p` of the mass the filter keeps nothing. -/
theorem top_p_take {topP : K} (filters : topP < 1) {c : List (Cand K)} {m : Nat} (some_ : 0 < m)
    (enough : topP ≤ mass (c.take m)) : topPStage topP (c.take m) = topPStage topP c := by
  have cut := @mass_cut_take _ _ _ topP 0 c m some_ (by rw [zero_add]; exact enough)
  have front : (c.take m).take (massCut topP 0 (c.take m)) = c.take (massCut topP 0 c) := by
    rw [cut.1, List.take_take]
    rcases cut.2 with short | all
    · rw [Nat.min_eq_left short]
    · rcases Nat.le_total (massCut topP 0 c) m with le | le
      · rw [Nat.min_eq_left le]
      · rw [Nat.min_eq_right le, List.take_of_length_le all, List.take_of_length_le (all.trans le)]
  unfold topPStage
  rw [if_pos filters, if_pos filters]
  dsimp only
  rw [front]

/-- Shares of a positive mass are positive and make one. -/
theorem scale_one {c : List (Cand K)} (pos : AllPos c) (some_ : c ≠ []) :
    AllPos (scaleBy (mass c) c) ∧ mass (scaleBy (mass c) c) = 1 ∧ scaleBy (mass c) c ≠ [] := by
  have all := mass_pos pos some_
  refine ⟨pos.scale all, ?_, ?_⟩
  · rw [mass_scale]
    exact div_self (ne_of_gt all)
  · unfold scaleBy
    intro nothing
    exact some_ (List.map_eq_nil_iff.mp nothing)

theorem top_p_one {topP : K} (filters : topP < 1) {c : List (Cand K)} (pos : AllPos c) (some_ : c ≠ []) :
    AllPos (topPStage topP c) ∧ mass (topPStage topP c) = 1 ∧ topPStage topP c ≠ [] := by
  unfold topPStage
  rw [if_pos filters]
  apply scale_one (pos.take _)
  intro nothing
  rcases List.take_eq_nil_iff.mp nothing with zero | empty
  · exact absurd (mass_cut_pos topP 0 some_) (by rw [zero]; exact lt_irrefl 0)
  · exact some_ empty

omit [IsStrictOrderedRing K] in
theorem min_p_cons {minP : K} (filters : 0 < minP) (best : Cand K) (c : List (Cand K)) :
    minPStage minP (best :: c) =
      if (c.takeWhile fun v => !decide (v.p < minP * best.p)).length < c.length then
        scaleBy (mass (best :: c.takeWhile fun v => !decide (v.p < minP * best.p)))
          (best :: c.takeWhile fun v => !decide (v.p < minP * best.p))
      else best :: c := by
  unfold minPStage
  dsimp only
  rw [if_pos filters]
  simp only [List.length_cons, Nat.add_lt_add_iff_right]

theorem min_p_one (minP : K) {c : List (Cand K)} (pos : AllPos c) (one : mass c = 1) (some_ : c ≠ []) :
    AllPos (minPStage minP c) ∧ mass (minPStage minP c) = 1 ∧ minPStage minP c ≠ [] := by
  cases c with
  | nil => exact absurd rfl some_
  | cons best c =>
      by_cases filters : 0 < minP
      · rw [min_p_cons filters]
        split
        · apply scale_one
          · refine List.forall_mem_cons.mpr ⟨pos best List.mem_cons_self, fun v member => ?_⟩
            exact pos v (List.mem_cons_of_mem _ ((List.takeWhile_sublist _).subset member))
          · exact List.cons_ne_nil _ _
        · exact ⟨pos, one, List.cons_ne_nil _ _⟩
      · have same : minPStage minP (best :: c) = best :: c := if_neg filters
        rw [same]
        exact ⟨pos, one, List.cons_ne_nil _ _⟩

omit [IsStrictOrderedRing K] in
/-- A front with a candidate under the floor is filtered as the whole. -/
theorem min_p_take {minP : K} (filters : 0 < minP) {best : Cand K} {front : List (Cand K)}
    (back : List (Cand K)) (under : ∃ v ∈ front, v.p < minP * best.p) :
    minPStage minP (best :: front) = minPStage minP (best :: (front ++ back)) := by
  have short : (front.takeWhile fun v => !decide (v.p < minP * best.p)).length < front.length := by
    apply lt_of_le_of_ne (List.takeWhile_sublist _).length_le
    intro whole
    rcases under with ⟨v, member, less⟩
    have all := List.takeWhile_eq_self_iff.mp ((List.takeWhile_prefix _).eq_of_length whole) v member
    rw [decide_eq_true less] at all
    cases all
  rw [min_p_cons filters, min_p_cons filters, List.takeWhile_append, if_neg (ne_of_lt short),
    if_pos short, if_pos]
  rw [List.length_append]
  omega

omit [IsStrictOrderedRing K] in
/-- A front over the floor is left as it is, and is what the whole is cut to. -/
theorem min_p_front {minP : K} (filters : 0 < minP) {best : Cand K} {front back : List (Cand K)}
    (above : ∀ v ∈ front, ¬v.p < minP * best.p) (under : ∀ v ∈ back, v.p < minP * best.p)
    (some_ : back ≠ []) :
    minPStage minP (best :: front) = best :: front ∧
      minPStage minP (best :: (front ++ back)) = scaleBy (mass (best :: front)) (best :: front) := by
  have whole : (front.takeWhile fun v => !decide (v.p < minP * best.p)) = front := by
    apply List.takeWhile_eq_self_iff.mpr
    intro v member
    rw [decide_eq_false (above v member)]
    rfl
  have none_ : (back.takeWhile fun v => !decide (v.p < minP * best.p)) = [] := by
    cases back with
    | nil => exact absurd rfl some_
    | cons v back =>
        rw [List.takeWhile_cons, decide_eq_true (under v List.mem_cons_self)]
        rfl
  have size : 0 < back.length := List.length_pos_of_ne_nil some_
  constructor
  · rw [min_p_cons filters, whole, if_neg (lt_irrefl _)]
  · rw [min_p_cons filters, List.takeWhile_append, whole, if_pos rfl, none_, List.append_nil, if_pos]
    rw [List.length_append]
    omega

/-! ## The sorted vocabulary -/

omit [Field K] [IsStrictOrderedRing K] in
theorem sort_pairwise (c : List (Cand K)) : (sortCands c).Pairwise (· ≤ ·) := by
  rw [sort_cands_order]
  exact List.pairwise_insertionSort (· ≤ ·) c

omit [Field K] [IsStrictOrderedRing K] in
theorem sort_perm (c : List (Cand K)) : (sortCands c).Perm c := by
  rw [sort_cands_order]
  exact List.perm_insertionSort (· ≤ ·) c

omit [IsStrictOrderedRing K] in
/-- The greatest logit is that of a candidate. -/
theorem max_logit_spec {c : List (Cand K)} (some_ : c ≠ []) :
    (∀ v ∈ c, v.p ≤ maxLogit c) ∧ ∃ v ∈ c, v.p = maxLogit c := by
  cases c with
  | nil => exact absurd rfl some_
  | cons first c =>
      have fold : ∀ (c : List (Cand K)) (mx : K),
          mx ≤ c.foldl (fun mx v => if v.p > mx then v.p else mx) mx ∧
            (∀ v ∈ c, v.p ≤ c.foldl (fun mx v => if v.p > mx then v.p else mx) mx) ∧
              (c.foldl (fun mx v => if v.p > mx then v.p else mx) mx = mx ∨
                ∃ v ∈ c, v.p = c.foldl (fun mx v => if v.p > mx then v.p else mx) mx) := by
        intro c
        induction c with
        | nil => exact fun mx => ⟨le_refl mx, (fun v never => by cases never), Or.inl rfl⟩
        | cons v c induction =>
            intro mx
            rw [List.foldl_cons]
            have step : mx ≤ (if v.p > mx then v.p else mx) ∧ v.p ≤ (if v.p > mx then v.p else mx) := by
              split
              · next more => exact ⟨le_of_lt more, le_refl _⟩
              · next less => exact ⟨le_refl _, not_lt.mp less⟩
            have later := induction (if v.p > mx then v.p else mx)
            refine ⟨step.1.trans later.1, List.forall_mem_cons.mpr ⟨step.2.trans later.1, later.2.1⟩, ?_⟩
            rcases later.2.2 with same | ⟨w, member, same⟩
            · rw [same]
              split
              · exact Or.inr ⟨v, List.mem_cons_self, rfl⟩
              · exact Or.inl rfl
            · exact Or.inr ⟨w, List.mem_cons_of_mem _ member, same⟩
      have spec := fold c first.p
      refine ⟨List.forall_mem_cons.mpr ⟨spec.1, spec.2.1⟩, ?_⟩
      rcases spec.2.2 with same | ⟨w, member, same⟩
      · exact ⟨first, List.mem_cons_self, same.symm⟩
      · exact ⟨w, List.mem_cons_of_mem _ member, same⟩

omit [IsStrictOrderedRing K] in
theorem sorted_head {c : List (Cand K)} {best : Cand K} {rest : List (Cand K)}
    (sorted : sortCands c = best :: rest) : best.p = maxLogit c := by
  have member : best ∈ c := (sort_perm c).subset (by rw [sorted]; exact List.mem_cons_self)
  have some_ : c ≠ [] := List.ne_nil_of_mem member
  have spec := max_logit_spec some_
  apply le_antisymm (spec.1 best member)
  rcases spec.2 with ⟨w, inside, same⟩
  rw [← same]
  have ordered := sort_pairwise c
  rw [sorted, List.pairwise_cons] at ordered
  have there : w ∈ best :: rest := by
    rw [← sorted]
    exact (sort_perm c).symm.subset inside
  rcases List.mem_cons.mp there with here | later
  · rw [here]
  · rcases cand_le_iff.mp (ordered.1 w later) with less | tie
    · exact le_of_lt less
    · exact le_of_eq tie.1.symm

/-- The softmax weights of the sorted vocabulary. -/
def weights (x : ExpLog K) (c : List (Cand K)) : List (Cand K) :=
  (sortCands c).map fun v => { v with p := x.exp (v.p - maxLogit c) }

omit [IsStrictOrderedRing K] in
theorem weigh_front (x : ExpLog K) {c : List (Cand K)} {m : Nat} (some_ : 0 < m) :
    weigh x ((sortCands c).take m) = (weights x c).take m := by
  unfold weigh weights
  cases sorted : sortCands c with
  | nil =>
      rw [List.take_nil, List.map_nil, List.map_nil, List.take_nil]
  | cons best rest =>
      cases m with
      | zero => exact absurd some_ (lt_irrefl 0)
      | succ m =>
          rw [← List.map_take, List.take_succ_cons, List.head?_cons, Option.map_some, Option.getD_some,
            sorted_head sorted]

omit [IsStrictOrderedRing K] in
theorem weights_pos (x : ExpLog K) (c : List (Cand K)) : AllPos (weights x c) := by
  intro v member
  rcases List.mem_map.mp member with ⟨w, _, same⟩
  rw [← same]
  exact x.pos _

omit [IsStrictOrderedRing K] in
theorem weights_mass (x : ExpLog K) (c : List (Cand K)) : mass (weights x c) = totalMass x c := by
  unfold mass weights totalMass
  rw [List.map_map]
  exact ((sort_perm c).map _).sum_eq

omit [IsStrictOrderedRing K] in
theorem weights_length (x : ExpLog K) (c : List (Cand K)) : (weights x c).length = c.length := by
  unfold weights
  rw [List.length_map]
  exact (sort_perm c).length_eq

theorem total_pos (x : ExpLog K) {c : List (Cand K)} (some_ : c ≠ []) : 0 < totalMass x c := by
  rw [← weights_mass]
  apply mass_pos (weights_pos x c)
  intro nothing
  have size := weights_length x c
  rw [nothing] at size
  exact some_ (List.eq_nil_of_length_eq_zero size.symm)

/-! ## Heads -/

theorem head_down (c : List (Cand K)) (t : K) : ∀ a b : Cand K, a ≤ b →
    decide (t ≤ b.p - maxLogit c) = true → decide (t ≤ a.p - maxLogit c) = true := by
  intro a b le kept
  rw [decide_eq_true_eq] at kept ⊢
  rcases cand_le_iff.mp le with less | tie
  · exact kept.trans (sub_le_sub_right (le_of_lt less) _)
  · rw [tie.1]
    exact kept

/-- A head is the front of the sorted vocabulary. -/
theorem sort_head (c : List (Cand K)) (t : K) :
    sortCands (headAt c t) = (sortCands c).take (headAt c t).length := by
  rw [sort_cands_order, sort_cands_order]
  exact Selection.sort_filter (head_down c t) c

omit [IsStrictOrderedRing K] in
theorem head_some {c : List (Cand K)} (some_ : c ≠ []) {t : K} (low : t ≤ 0) :
    0 < (headAt c t).length := by
  rcases (max_logit_spec some_).2 with ⟨v, member, most⟩
  apply List.length_pos_of_mem (a := v)
  apply List.mem_filter.mpr ⟨member, _⟩
  rw [decide_eq_true_eq, most, sub_self]
  exact low

omit [IsStrictOrderedRing K] in
theorem head_le (c : List (Cand K)) (t : K) : (headAt c t).length ≤ c.length :=
  List.length_filter_le _ _

theorem head_weights_mass (x : ExpLog K) (c : List (Cand K)) (t : K) :
    mass ((weights x c).take (headAt c t).length) = headMass x c t := by
  unfold mass weights headMass
  rw [← List.map_take, ← sort_head, List.map_map]
  exact ((sort_perm (headAt c t)).map _).sum_eq

/-- Behind a head there are only candidates under its threshold. -/
theorem head_behind (x : ExpLog K) (c : List (Cand K)) (t : K) :
    ∀ v ∈ (weights x c).drop (headAt c t).length, v.p < x.exp t := by
  intro v member
  unfold weights at member
  rw [← List.map_drop] at member
  rcases List.mem_map.mp member with ⟨w, inside, same⟩
  rw [sort_cands_order] at inside
  rw [← same]
  apply x.mono
  have under := Selection.sort_behind (head_down c t) c w inside
  rw [decide_eq_false_iff_not, not_le] at under
  exact under

/-! ## Picks -/

/-- The shares of the sorted vocabulary. -/
def shares (x : ExpLog K) (c : List (Cand K)) : List (Cand K) := scaleBy (totalMass x c) (weights x c)

theorem shares_pos (x : ExpLog K) {c : List (Cand K)} (some_ : c ≠ []) : AllPos (shares x c) :=
  (weights_pos x c).scale (total_pos x some_)

theorem shares_one (x : ExpLog K) {c : List (Cand K)} (some_ : c ≠ []) :
    mass (shares x c) = 1 ∧ shares x c ≠ [] := by
  unfold shares
  constructor
  · rw [mass_scale, weights_mass]
    exact div_self (ne_of_gt (total_pos x some_))
  · intro nothing
    have size := scale_length (totalMass x c) (weights x c)
    rw [nothing, weights_length] at size
    exact some_ (List.eq_nil_of_length_eq_zero size.symm)

theorem survivors_head (x : ExpLog K) (s : Sampler K) {c : List (Cand K)} (some_ : c ≠ []) {t : K}
    (low : t ≤ 0) : survivors x s (sortCands (headAt c t)) (totalMass x c) =
      minPStage s.minP (topPStage s.topP ((shares x c).take (headAt c t).length)) := by
  unfold survivors shares
  dsimp only
  rw [sort_head, weigh_front x (head_some some_ low), if_pos (total_pos x some_), scale_take]

omit [IsStrictOrderedRing K] in
theorem survivors_full (x : ExpLog K) (s : Sampler K) {c : List (Cand K)} (some_ : c ≠ []) :
    survivors x s (sortCands c) 0 = minPStage s.minP (topPStage s.topP (shares x c)) := by
  have weighed := @weigh_front _ _ _ x c c.length (List.length_pos_of_ne_nil some_)
  have size : (sortCands c).length = c.length := (sort_perm c).length_eq
  rw [List.take_of_length_le (le_of_eq size), List.take_of_length_le (le_of_eq (weights_length x c))]
    at weighed
  unfold survivors shares
  dsimp only
  rw [weighed, if_neg (lt_irrefl 0), weights_mass]

theorem draw_range (s : UInt64) : 0 ≤ rngF32 K s ∧ rngF32 K s < 1 := by
  unfold rngF32
  have small : (rngNext s >>> 40).toNat < 16777216 := by
    rw [UInt64.toNat_shiftRight]
    have bound := (rngNext s).toNat_lt
    show (rngNext s).toNat >>> 40 < 16777216
    rw [Nat.shiftRight_eq_div_pow]
    omega
  constructor
  · positivity
  · rw [div_lt_one (by norm_num)]
    exact_mod_cast small

/-- A pick that draws, in terms of the draw. -/
def pickWith (c : List (Cand K)) (r : K) : Int :=
  ((walk r 0 c).map fun id => (id : Int)).getD ((c.getLast?.map fun v => (v.id : Int)).getD 0)

omit [IsStrictOrderedRing K] in
theorem pick_scaled_eq (x : ExpLog K) (s : Sampler K) (rng : UInt64) (c : List (Cand K))
    (normSum rPre : K) : pickScaled x s rng c normSum rPre =
      { token := pickWith (survivors x s c normSum) (if rPre ≥ 0 then rPre else rngF32 K rng)
        rng := if rPre ≥ 0 then rng else rngNext rng
        fellOff := (walk (if rPre ≥ 0 then rPre else rngF32 K rng) 0 (survivors x s c normSum)).isNone } := by
  unfold pickScaled pickWith
  dsimp only
  cases walk (if rPre ≥ 0 then rPre else rngF32 K rng) 0 (survivors x s c normSum) with
  | none => rfl
  | some id => rfl

/-- Shares that make one are not walked past. -/
theorem walk_lands {c : List (Cand K)} (pos : AllPos c) (one : mass c = 1) {r : K} (range : 0 ≤ r ∧ r < 1) :
    (walk r 0 c).isNone = false := by
  have hits := (walk_hits pos range.1).mpr (by rw [one, zero_add]; exact range.2)
  cases found : walk r 0 c with
  | none =>
      rw [found] at hits
      cases hits
  | some id => rfl

/-! ## The head path -/

/-- What the head path does with a head that it takes. -/
def headEnd (x : ExpLog K) (s : Sampler K) (c : List (Cand K)) (rPre : K) (rng : UInt64) (t : K) :
    Head :=
  let pick := pickScaled x s rng (sortCands (headAt c t)) (totalMass x c) rPre
  if pick.fellOff then .freedTwice else .done pick.token pick.rng

omit [IsStrictOrderedRing K] in
theorem head_from_succ (x : ExpLog K) (s : Sampler K) (c : List (Cand K)) (rPre : K) (rng : UInt64)
    (loosen : Nat) (t : K) : headFrom x s c c.length rPre rng (loosen + 1) t =
      if (headAt c t).length > headCap then .retreat rng
      else if headEnough x s c t rPre then headEnd x s c rPre rng t
      else headFrom x s c c.length rPre rng loosen (t * 4) := by
  have size : (sortCands (headAt c t)).length ≤ c.length := by
    rw [(sort_perm _).length_eq]
    exact head_le c t
  have whole : (sortCands (headAt c t)).take c.length = sortCands (headAt c t) :=
    List.take_of_length_le size
  conv_lhs => unfold headFrom
  dsimp only
  rw [whole, if_neg (lt_irrefl c.length)]
  rfl

/-- Where every head that is enough ends as the full sort does, so does the path, or it retreats. -/
theorem head_from_agrees (x : ExpLog K) (s : Sampler K) (c : List (Cand K)) (rPre : K) (rng : UInt64)
    {last : Head} (agrees : ∀ t ≤ 0, headEnough x s c t rPre = true → headEnd x s c rPre rng t = last)
    (loosen : Nat) {t : K} (low : t ≤ 0) :
    headFrom x s c c.length rPre rng loosen t = .retreat rng ∨
      headFrom x s c c.length rPre rng loosen t = last := by
  induction loosen generalizing t with
  | zero => exact Or.inl rfl
  | succ loosen induction =>
      rw [head_from_succ]
      split
      · exact Or.inl rfl
      · split
        · next enough => exact Or.inr (agrees t low enough)
        · exact induction (mul_nonpos_of_nonpos_of_nonneg low (by norm_num))

/-- The full sort behind the head path. -/
def fullEnd (x : ExpLog K) (s : Sampler K) (c : List (Cand K)) (rPre : K) (rng : UInt64) : Head :=
  .done (pickScaled x s rng (sortCands c) 0 rPre).token (pickScaled x s rng (sortCands c) 0 rPre).rng

theorem head_end_top_p (x : ExpLog K) {s : Sampler K} {c : List (Cand K)} (some_ : c ≠ [])
    (filters : s.topP < 1) (rng : UInt64) {t : K} (low : t ≤ 0)
    (enough : headEnough x s c t (-1) = true) :
    headEnd x s c (-1) rng t = fullEnd x s c (-1) rng := by
  unfold headEnough at enough
  rw [if_pos filters, decide_eq_true_eq, ← head_weights_mass] at enough
  have total := total_pos x some_
  have reach : s.topP ≤ mass ((shares x c).take (headAt c t).length) := by
    unfold shares
    rw [← scale_take, mass_scale, le_div_iff₀ total]
    exact enough
  have same : survivors x s (sortCands (headAt c t)) (totalMass x c) = survivors x s (sortCands c) 0 := by
    rw [survivors_head x s some_ low, survivors_full x s some_,
      top_p_take filters (head_some some_ low) reach]
  have top := top_p_one filters (shares_pos x some_) (shares_one x some_).2
  have one := min_p_one s.minP top.1 top.2.1 top.2.2
  have drawn : ¬(-1 : K) ≥ 0 := not_le.mpr (by norm_num)
  unfold headEnd fullEnd
  rw [pick_scaled_eq, pick_scaled_eq, same, survivors_full x s some_, if_neg drawn, if_neg drawn,
    walk_lands one.1 one.2.1 (draw_range rng)]
  rfl

omit [IsStrictOrderedRing K] in
theorem stages_off {s : Sampler K} (top : ¬s.topP < 1) (min : ¬s.minP > 0) (c : List (Cand K)) :
    minPStage s.minP (topPStage s.topP c) = c := by
  unfold topPStage
  rw [if_neg top]
  cases c with
  | nil => rfl
  | cons best c => exact if_neg min

theorem head_end_unfiltered (x : ExpLog K) {s : Sampler K} {c : List (Cand K)} (some_ : c ≠ [])
    (top : ¬s.topP < 1) (min : ¬s.minP > 0) (rng : UInt64) {r : K} (range : 0 ≤ r ∧ r < 1) {t : K}
    (low : t ≤ 0) (enough : headEnough x s c t r = true) :
    headEnd x s c r rng t = fullEnd x s c r rng := by
  unfold headEnough at enough
  rw [if_neg top, if_neg min, decide_eq_true_eq, ← head_weights_mass] at enough
  have total := total_pos x some_
  have front : AllPos ((shares x c).take (headAt c t).length) := (shares_pos x some_).take _
  have reach : r < mass ((shares x c).take (headAt c t).length) := by
    unfold shares
    rw [← scale_take, mass_scale, lt_div_iff₀ total]
    exact enough
  have hits := (walk_hits front range.1).mpr (by rw [zero_add]; exact reach)
  rcases Option.isSome_iff_exists.mp hits with ⟨id, found⟩
  have whole := walk_append ((shares x c).drop (headAt c t).length) found
  rw [List.take_append_drop] at whole
  unfold headEnd fullEnd
  rw [pick_scaled_eq, pick_scaled_eq, survivors_head x s some_ low, survivors_full x s some_,
    stages_off top min, stages_off top min, if_pos range.1, if_pos range.1]
  unfold pickWith
  rw [found, whole]
  rfl

/-! ## A head under a min-p floor -/

/-- The first threshold that is at or under the floor. -/
def minPThreshold (x : ExpLog K) (minP : K) : Nat → K → Option K
  | 0, _ => none
  | loosen + 1, tLog =>
      if tLog ≤ x.log minP then some tLog else minPThreshold x minP loosen (tLog * 4)

omit [IsStrictOrderedRing K] in
theorem head_mono (c : List (Cand K)) {t t' : K} (le : t' ≤ t) :
    (headAt c t).length ≤ (headAt c t').length := by
  unfold headAt
  rw [← List.countP_eq_length_filter, ← List.countP_eq_length_filter]
  apply List.countP_mono_left
  intro v _ kept
  rw [decide_eq_true_eq] at kept ⊢
  exact le.trans kept

theorem threshold_spec {x : ExpLog K} {minP : K} {loosen : Nat} {t t' : K} (low : t ≤ 0)
    (found : minPThreshold x minP loosen t = some t') : t' ≤ t ∧ t' ≤ x.log minP := by
  induction loosen generalizing t with
  | zero => cases found
  | succ loosen induction =>
      unfold minPThreshold at found
      split at found
      · next under =>
        cases found
        exact ⟨le_refl _, under⟩
      · have lower : t * 4 ≤ t := by linarith
        have later := induction (lower.trans low) found
        exact ⟨later.1.trans lower, later.2⟩

/-- The path takes the head of that threshold, if it is not too broad. -/
theorem head_from_min_p (x : ExpLog K) {s : Sampler K} (c : List (Cand K)) (rPre : K) (rng : UInt64)
    (top : ¬s.topP < 1) (filters : 0 < s.minP) (loosen : Nat) {t : K} (low : t ≤ 0) :
    headFrom x s c c.length rPre rng loosen t =
      match minPThreshold x s.minP loosen t with
      | none => .retreat rng
      | some t => if (headAt c t).length > headCap then .retreat rng else headEnd x s c rPre rng t := by
  induction loosen generalizing t with
  | zero => rfl
  | succ loosen induction =>
      have enough : headEnough x s c t rPre = decide (t ≤ x.log s.minP) := by
        unfold headEnough
        rw [if_neg top, if_pos filters]
      have lower : t * 4 ≤ t := by linarith
      rw [head_from_succ, enough]
      unfold minPThreshold
      by_cases under : t ≤ x.log s.minP
      · rw [decide_eq_true under, if_pos under, if_pos rfl]
      · rw [decide_eq_false under, if_neg under, if_neg Bool.false_ne_true, induction (lower.trans low)]
        cases found : minPThreshold x s.minP loosen (t * 4) with
        | none => exact ite_self _
        | some t' =>
            dsimp only
            have wider := head_mono c ((threshold_spec (lower.trans low) found).1.trans lower)
            by_cases broad : (headAt c t).length > headCap
            · rw [if_pos broad, if_pos (by omega)]
            · rw [if_neg broad]

/-- The weights of a head, in descending order. -/
def headWeights (x : ExpLog K) (c : List (Cand K)) (t : K) : List (Cand K) :=
  (sortCands (headAt c t)).map fun v => { v with p := x.exp (v.p - maxLogit c) }

theorem head_weights_front (x : ExpLog K) (c : List (Cand K)) (t : K) :
    headWeights x c t = (weights x c).take (headAt c t).length := by
  unfold headWeights weights
  rw [sort_head, List.map_take]

/-- A draw that the whole mass and the mass of the head see differently: a partial mass of
the head is above its share of the head and not above its share of the whole. -/
def Differs (x : ExpLog K) (c : List (Cand K)) (t r : K) : Prop :=
  ∃ i < (headAt c t).length,
    r * headMass x c t < mass ((headWeights x c t).take (i + 1)) ∧
      mass ((headWeights x c t).take (i + 1)) ≤ r * totalMass x c

/-- The head path takes a head that is not the whole vocabulary and lies over the min-p floor
altogether, and the draw falls differently. -/
def HeadSlips (x : ExpLog K) (s : Sampler K) (c : List (Cand K)) : Prop :=
  ∃ t, minPThreshold x s.minP 6 (x.log (1 / 1024)) = some t ∧ (headAt c t).length ≤ headCap ∧
    (headAt c t).length < c.length ∧ (∀ v ∈ (headWeights x c t).tail, s.minP ≤ v.p) ∧
      Differs x c t (rngF32 K s.rng)

theorem first_threshold (x : ExpLog K) : x.log (1 / 1024) ≤ 0 := by
  rw [← x.mono.le_iff_le, x.exp_log _ (by norm_num), x.zero]
  norm_num

omit [IsStrictOrderedRing K] in
/-- The best candidate has weight one. -/
theorem weights_cons (x : ExpLog K) {c : List (Cand K)} {best : Cand K} {rest : List (Cand K)}
    (weighed : weights x c = best :: rest) : best.p = 1 := by
  unfold weights at weighed
  cases sorted : sortCands c with
  | nil =>
      rw [sorted] at weighed
      cases weighed
  | cons first later =>
      rw [sorted] at weighed
      cases weighed
      show x.exp (first.p - maxLogit c) = 1
      rw [sorted_head sorted, sub_self, x.zero]

omit [IsStrictOrderedRing K] in
theorem top_off {s : Sampler K} (top : ¬s.topP < 1) (c : List (Cand K)) : topPStage s.topP c = c :=
  if_neg top

/-- A head under the floor is filtered as the whole vocabulary, unless it lies over the floor
altogether: then it stays as it is, and the vocabulary is cut to it and renormalised. -/
theorem min_p_head (x : ExpLog K) {s : Sampler K} {c : List (Cand K)} (some_ : c ≠ [])
    (top : ¬s.topP < 1) (filters : 0 < s.minP) {t : K} (low : t ≤ 0) (under : t ≤ x.log s.minP) :
    if (headAt c t).length < c.length ∧ ∀ v ∈ (headWeights x c t).tail, s.minP ≤ v.p then
      survivors x s (sortCands (headAt c t)) (totalMass x c) =
          scaleBy (totalMass x c) (headWeights x c t) ∧
        survivors x s (sortCands c) 0 = scaleBy (headMass x c t) (headWeights x c t)
    else survivors x s (sortCands (headAt c t)) (totalMass x c) = survivors x s (sortCands c) 0 := by
  have total := total_pos x some_
  have size := head_some some_ low
  have behind := head_behind x c t
  have lengths := weights_length x c
  have massed := head_weights_mass x c t
  have floor : x.exp t ≤ s.minP := by
    rw [← x.exp_log s.minP filters]
    exact x.mono.monotone under
  rw [survivors_head x s some_ low, survivors_full x s some_, top_off top, top_off top,
    head_weights_front]
  unfold shares
  rw [← scale_take]
  generalize (headAt c t).length = m at *
  cases m with
  | zero => exact absurd size (lt_irrefl 0)
  | succ m =>
      cases weighed : weights x c with
      | nil =>
          rw [weighed] at lengths
          exact absurd (List.eq_nil_of_length_eq_zero lengths.symm) some_
      | cons best rest =>
          rw [weighed] at behind lengths massed
          rw [List.length_cons] at lengths
          rw [List.drop_succ_cons] at behind
          rw [List.take_succ_cons] at massed ⊢
          have one := weights_cons x weighed
          have scaled : ∀ (v : Cand K), v.p / totalMass x c < s.minP * (best.p / totalMass x c) ↔
              v.p < s.minP := by
            intro v
            rw [one, mul_one_div, div_lt_div_iff_of_pos_right total]
          have split : scaleBy (totalMass x c) (best :: rest) =
              { best with p := best.p / totalMass x c } ::
                (scaleBy (totalMass x c) (rest.take m) ++ scaleBy (totalMass x c) (rest.drop m)) := by
            unfold scaleBy
            rw [← List.map_append, List.take_append_drop, List.map_cons]
          have front : scaleBy (totalMass x c) (best :: rest.take m) =
              { best with p := best.p / totalMass x c } :: scaleBy (totalMass x c) (rest.take m) :=
            List.map_cons
          rw [split, front]
          split
          · next over_ =>
            have back : scaleBy (totalMass x c) (rest.drop m) ≠ [] := by
              unfold scaleBy
              intro nothing
              have none_ := List.drop_eq_nil_iff.mp (List.map_eq_nil_iff.mp nothing)
              omega
            have filtered := @min_p_front _ _ _ s.minP filters
              { best with p := best.p / totalMass x c } (scaleBy (totalMass x c) (rest.take m))
              (scaleBy (totalMass x c) (rest.drop m)) ?_ ?_ back
            · refine ⟨filtered.1, ?_⟩
              rw [filtered.2, ← front, mass_scale, massed]
              unfold scaleBy
              rw [List.map_map]
              apply List.map_congr_left
              intro v _
              unfold Function.comp
              dsimp only
              rw [div_div_div_cancel_right₀ (ne_of_gt total)]
            · intro v member
              rcases List.mem_map.mp member with ⟨w, inside, same⟩
              rw [← same]
              dsimp only
              rw [scaled, not_lt]
              exact over_.2 w inside
            · intro v member
              rcases List.mem_map.mp member with ⟨w, inside, same⟩
              rw [← same]
              dsimp only
              rw [scaled]
              exact lt_of_lt_of_le (behind w inside) floor
          · next other =>
            by_cases short : m + 1 < c.length
            · rw [not_and, not_forall] at other
              rcases other short with ⟨w, some_under⟩
              rw [Classical.not_imp] at some_under
              apply min_p_take filters
              refine ⟨{ w with p := w.p / totalMass x c }, List.mem_map.mpr ⟨w, some_under.1, rfl⟩, ?_⟩
              dsimp only
              rw [scaled]
              exact not_le.mp some_under.2
            · have none_ : rest.drop m = [] := List.drop_eq_nil_iff.mpr (by omega)
              rw [none_]
              unfold scaleBy
              rw [List.map_nil, List.append_nil]

/-- How a call ends behind the head path. -/
def settle (x : ExpLog K) (s : Sampler K) (c : List (Cand K)) (rPre : K) :
    Head → Option (Int × UInt64)
  | .done token rng => some (token, rng)
  | .freedTwice => none
  | .retreat rng => some (
      (pickScaled x s rng (sortCands c) 0 rPre).token, (pickScaled x s rng (sortCands c) 0 rPre).rng)

omit [IsStrictOrderedRing K] in
theorem settle_full (x : ExpLog K) (s : Sampler K) (c : List (Cand K)) (rPre : K) (rng : UInt64) :
    settle x s c rPre (fullEnd x s c rPre rng) = settle x s c rPre (.retreat rng) := rfl

theorem head_mass_pos (x : ExpLog K) {c : List (Cand K)} (some_ : c ≠ []) {t : K} (low : t ≤ 0) :
    0 < headMass x c t := by
  rw [← head_weights_mass]
  apply mass_pos ((weights_pos x c).take _)
  intro nothing
  have size := head_some some_ low
  rcases List.take_eq_nil_iff.mp nothing with zero | empty
  · omega
  · have lengths := weights_length x c
    rw [empty] at lengths
    exact some_ (List.eq_nil_of_length_eq_zero lengths.symm)

theorem head_mass_le (x : ExpLog K) (c : List (Cand K)) (t : K) : headMass x c t ≤ totalMass x c := by
  rw [← head_weights_mass, ← weights_mass]
  have split := List.take_append_drop (headAt c t).length (weights x c)
  have both : mass (weights x c) = mass ((weights x c).take (headAt c t).length) +
      mass ((weights x c).drop (headAt c t).length) := by
    conv_lhs => rw [← split]
    unfold mass
    rw [List.map_append, List.sum_append]
  have tail : AllPos ((weights x c).drop (headAt c t).length) :=
    fun v member => weights_pos x c v (List.mem_of_mem_drop member)
  rw [both]
  exact le_add_of_nonneg_right (mass_nonneg tail)

omit [IsStrictOrderedRing K] in
theorem pick_with_found {c : List (Cand K)} {r : K} {id : Nat} (found : walk r 0 c = some id) :
    pickWith c r = id := by
  unfold pickWith
  rw [found]
  rfl

/-- A head over the floor ends as the full sort unless the draw falls differently. -/
theorem over_settles (x : ExpLog K) {s : Sampler K} {c : List (Cand K)} (some_ : c ≠ [])
    (once : (c.map fun v => v.id).Nodup) {t : K} (low : t ≤ 0)
    (front : survivors x s (sortCands (headAt c t)) (totalMass x c) =
      scaleBy (totalMass x c) (headWeights x c t))
    (whole : survivors x s (sortCands c) 0 = scaleBy (headMass x c t) (headWeights x c t)) :
    settle x s c (-1) (headEnd x s c (-1) s.rng t) = settle x s c (-1) (.retreat s.rng) ↔
      ¬Differs x c t (rngF32 K s.rng) := by
  have range := @draw_range K _ _ _ s.rng
  have total := total_pos x some_
  have part := head_mass_pos x some_ low
  have massed : mass (headWeights x c t) = headMass x c t := by
    rw [head_weights_front, head_weights_mass]
  have pos : AllPos (headWeights x c t) := by
    rw [head_weights_front]
    exact (weights_pos x c).take _
  have ids : ((headWeights x c t).map fun v => v.id).Nodup := by
    unfold headWeights
    rw [List.map_map]
    have kept : ((headAt c t).map fun v => v.id).Nodup :=
      once.sublist ((List.filter_sublist).map _)
    exact ((sort_perm (headAt c t)).map _).nodup_iff.mpr kept
  have size : (headWeights x c t).length = (headAt c t).length := by
    unfold headWeights
    rw [List.length_map]
    exact (sort_perm _).length_eq
  have drawn : ¬(-1 : K) ≥ 0 := not_le.mpr (by norm_num)
  have in_head : ∀ r : K, walk r 0 (scaleBy (totalMass x c) (headWeights x c t)) =
      walk (r * totalMass x c) 0 (headWeights x c t) := by
    intro r
    have scaled := walk_scale total r 0 (headWeights x c t)
    rw [zero_div] at scaled
    exact scaled
  have in_full : ∀ r : K, walk r 0 (scaleBy (headMass x c t) (headWeights x c t)) =
      walk (r * headMass x c t) 0 (headWeights x c t) := by
    intro r
    have scaled := walk_scale part r 0 (headWeights x c t)
    rw [zero_div] at scaled
    exact scaled
  -- the full sort lands on a candidate of the head
  have low_draw : rngF32 K s.rng * headMass x c t < headMass x c t := mul_lt_of_lt_one_left part range.2
  have lands := (walk_hits pos (mul_nonneg range.1 (le_of_lt part))).mpr
    (by rw [massed, zero_add]; exact low_draw)
  rcases Option.isSome_iff_exists.mp lands with ⟨id, found⟩
  have full : settle x s c (-1) (.retreat s.rng) = some ((id : Int), rngNext s.rng) := by
    unfold settle
    dsimp only
    rw [pick_scaled_eq, whole, if_neg drawn, if_neg drawn]
    dsimp only
    rw [pick_with_found ((in_full _).trans found)]
  have le : rngF32 K s.rng * headMass x c t ≤ rngF32 K s.rng * totalMass x c :=
    mul_le_mul_of_nonneg_left (head_mass_le x c t) range.1
  have same_iff := @walk_same_iff K _ _ _ _ _ 0 _ pos ids le
  simp only [zero_add, size] at same_iff
  rw [full]
  unfold headEnd
  rw [pick_scaled_eq, front, if_neg drawn, if_neg drawn]
  dsimp only
  have high : 0 ≤ rngF32 K s.rng * totalMass x c := mul_nonneg range.1 (le_of_lt total)
  have hits := walk_hits pos high
  rw [massed, zero_add] at hits
  by_cases inside : rngF32 K s.rng * totalMass x c < headMass x c t
  · -- the draw lands in the head
    rcases Option.isSome_iff_exists.mp (hits.mpr inside) with ⟨other, landed⟩
    rw [in_head, landed, Option.isNone_some, if_neg Bool.false_ne_true]
    unfold settle
    dsimp only
    rw [pick_with_found ((in_head _).trans landed), Option.some.injEq, Prod.mk.injEq,
      and_iff_left rfl, Nat.cast_inj]
    unfold Differs
    rw [landed, found, Option.some.injEq] at same_iff
    exact same_iff
  · -- the draw falls off the head
    have none_ : walk (rngF32 K s.rng * totalMass x c) 0 (headWeights x c t) = none := by
      cases again : walk (rngF32 K s.rng * totalMass x c) 0 (headWeights x c t) with
      | none => rfl
      | some other =>
          rw [again] at hits
          exact absurd (hits.mp rfl) inside
    have differs : Differs x c t (rngF32 K s.rng) := by
      by_contra same
      rw [none_, found] at same_iff
      cases same_iff.mpr same
    rw [in_head, none_, Option.isNone_none, if_pos rfl]
    refine ⟨fun same => ?_, fun stands => absurd differs stands⟩
    cases same

theorem min_p_settles (x : ExpLog K) {s : Sampler K} {c : List (Cand K)} (some_ : c ≠ [])
    (once : (c.map fun v => v.id).Nodup) (top : ¬s.topP < 1) (filters : 0 < s.minP) :
    settle x s c (-1) (headFrom x s c c.length (-1) s.rng 6 (x.log (1 / 1024))) =
        settle x s c (-1) (.retreat s.rng) ↔ ¬HeadSlips x s c := by
  have low := first_threshold x
  rw [head_from_min_p x c (-1) s.rng top filters 6 low]
  unfold HeadSlips
  cases found : minPThreshold x s.minP 6 (x.log (1 / 1024)) with
  | none =>
      refine ⟨fun _ => ?_, fun _ => rfl⟩
      rintro ⟨t, never, _⟩
      cases never
  | some t =>
      have spec := threshold_spec low found
      have cases_ := min_p_head x some_ top filters (spec.1.trans low) spec.2
      dsimp only
      by_cases broad : (headAt c t).length > headCap
      · rw [if_pos broad]
        refine ⟨fun _ => ?_, fun _ => rfl⟩
        rintro ⟨t', same, narrow, _⟩
        cases same
        exact absurd broad (not_lt.mpr narrow)
      · rw [if_neg broad]
        by_cases over_ : (headAt c t).length < c.length ∧ ∀ v ∈ (headWeights x c t).tail, s.minP ≤ v.p
        · rw [if_pos over_] at cases_
          rw [over_settles x some_ once (spec.1.trans low) cases_.1 cases_.2]
          apply not_congr
          constructor
          · intro slips
            exact ⟨t, rfl, not_lt.mp broad, over_.1, over_.2, slips⟩
          · rintro ⟨t', same, _, _, _, slips⟩
            cases same
            exact slips
        · rw [if_neg over_] at cases_
          have ended : headEnd x s c (-1) s.rng t = fullEnd x s c (-1) s.rng := by
            have one := min_p_one s.minP (shares_pos x some_) (shares_one x some_).1 (shares_one x some_).2
            have drawn : ¬(-1 : K) ≥ 0 := not_le.mpr (by norm_num)
            unfold headEnd fullEnd
            rw [pick_scaled_eq, pick_scaled_eq, cases_, survivors_full x s some_, top_off top,
              if_neg drawn, if_neg drawn, walk_lands one.1 one.2.1 (draw_range s.rng)]
            rfl
          rw [ended, settle_full]
          refine ⟨fun _ => ?_, fun _ => rfl⟩
          rintro ⟨t', same, _, short, above, _⟩
          cases same
          exact over_ ⟨short, above⟩

/-! ## The whole call -/

omit [LinearOrder K] [IsStrictOrderedRing K] in
theorem cands_length (temp : K) (logits : List K) : (cands temp logits).length = logits.length :=
  cells_length _ _

omit [LinearOrder K] [IsStrictOrderedRing K] in
theorem cands_once (temp : K) (logits : List K) : ((cands temp logits).map fun v => v.id).Nodup := by
  have ids : (cands temp logits).map (fun v => v.id) = List.range logits.length := by
    unfold cands cells
    rw [List.map_map]
    exact List.map_id _
  rw [ids]
  exact List.nodup_range

/-- Where a call slips: a large vocabulary, no filter but min-p, and a head that slips. -/
def Slips (x : ExpLog K) (s : Sampler K) (logits : List K) : Prop :=
  4096 ≤ logits.length ∧ wantedK s logits.length = logits.length ∧ ¬s.topP < 1 ∧ 0 < s.minP ∧
    HeadSlips x s (cands s.temp (penalise s logits))

omit [Field K] [LinearOrder K] [IsStrictOrderedRing K] in
theorem wanted_le (s : Sampler K) (n : Nat) : wantedK s n ≤ n := by
  unfold wantedK
  split
  · omega
  · exact le_refl n

omit [IsStrictOrderedRing K] in
theorem penalise_length (s : Sampler K) (logits : List K) : (penalise s logits).length = logits.length := by
  unfold penalise
  split
  · generalize s.recent = window
    induction window generalizing logits with
    | nil => rfl
    | cons tok window induction =>
        rw [List.foldl_cons, induction]
        split
        · rfl
        · split
          · rfl
          · exact List.length_modify _ _ _
  · rfl

/-- A draw made early is the draw of the pick. -/
theorem pick_drawn (x : ExpLog K) (s : Sampler K) (rng : UInt64) (c : List (Cand K)) (normSum : K) :
    pickScaled x s (rngNext rng) c normSum (rngF32 K rng) = pickScaled x s rng c normSum (-1) := by
  have range := @draw_range K _ _ _ rng
  have drawn : ¬(-1 : K) ≥ 0 := not_le.mpr (by norm_num)
  rw [pick_scaled_eq, pick_scaled_eq, if_pos range.1, if_pos range.1, if_neg drawn, if_neg drawn]

omit [IsStrictOrderedRing K] in
/-- `sample_pick` without a constraint, by its paths. -/
theorem sample_pick_eq (x : ExpLog K) {s : Sampler K} (warm : 0 < s.temp) (logits : List K) :
    samplePick x s logits none =
      let c := cands s.temp (penalise s logits)
      if wantedK s c.length < c.length then
        some ((pickScaled x s s.rng ((sortCands c).take (wantedK s c.length)) 0 (-1)).token,
          (pickScaled x s s.rng ((sortCands c).take (wantedK s c.length)) 0 (-1)).rng)
      else if 4096 ≤ c.length then
        if ¬s.topP < 1 ∧ ¬s.minP > 0 then
          settle x s c (rngF32 K s.rng) (headFrom x s c c.length (rngF32 K s.rng) (rngNext s.rng) 6
            (x.log (1 / 1024)))
        else settle x s c (-1) (headFrom x s c c.length (-1) s.rng 6 (x.log (1 / 1024)))
      else settle x s c (-1) (.retreat s.rng) := by
  have cold : ¬s.temp ≤ 0 := not_le.mpr warm
  have size := cands_length s.temp (penalise s logits)
  unfold samplePick
  dsimp only
  rw [if_neg (fun both => cold both.1), if_pos warm, size]
  generalize penalise s logits = scored at size
  have chosen : sortCands (cells (Selection.selectTopk (cand s.temp scored) scored.length
      (wantedK s scored.length)) (wantedK s scored.length)) =
      (sortCands (cands s.temp scored)).take (wantedK s scored.length) := by
    rw [sort_cands_order, sort_cands_order]
    exact Selection.select_sorted (cand s.temp scored) (wanted_le s scored.length)
  by_cases few : wantedK s scored.length < scored.length
  · rw [if_pos few, chosen]
    simp only [warm, few, not_le.mpr few, ge_iff_le, decide_true, decide_false, Option.isNone_none,
      Bool.and_true, Bool.false_and, Bool.true_and, if_true, Bool.false_eq_true, if_false]
  · have all : wantedK s scored.length = scored.length :=
      Nat.le_antisymm (wanted_le s scored.length) (not_lt.mp few)
    have whole : (sortCands (cands s.temp scored)).take scored.length = sortCands (cands s.temp scored) := by
      apply List.take_of_length_le
      rw [(sort_perm _).length_eq, size]
    rw [all, if_neg (lt_irrefl _), whole]
    simp only [warm, ge_iff_le, le_refl, lt_irrefl, cold, decide_true, decide_false,
      Option.isNone_none, Option.isSome_none, Bool.and_true, Bool.and_false, Bool.true_and,
      Bool.false_and, Bool.false_eq_true, if_false]
    by_cases large : 4096 ≤ scored.length
    · simp only [large, decide_true, Bool.and_true, if_true]
      by_cases unfiltered : ¬s.topP < 1 ∧ ¬s.minP > 0
      · rw [if_pos unfiltered]
        have one : 1 ≤ s.topP := not_lt.mp unfiltered.1
        have zero : s.minP ≤ 0 := not_lt.mp unfiltered.2
        simp only [one, zero, decide_true, Bool.and_true, if_true]
        cases headFrom x s (cands s.temp scored) scored.length (rngF32 K s.rng) (rngNext s.rng) 6
            (x.log (1 / 1024)) with
        | done token rng => rfl
        | retreat rng => rfl
        | freedTwice => rfl
      · rw [if_neg unfiltered]
        have not_drawn : (decide (1 ≤ s.topP) && decide (s.minP ≤ 0)) = false := by
          rw [← Bool.not_eq_true, Bool.and_eq_true, decide_eq_true_eq, decide_eq_true_eq]
          exact fun both => unfiltered ⟨not_lt.mpr both.1, not_lt.mpr both.2⟩
        simp only [not_drawn, Bool.false_eq_true, if_false]
        cases headFrom x s (cands s.temp scored) scored.length (-1) s.rng 6 (x.log (1 / 1024)) with
        | done token rng => rfl
        | retreat rng => rfl
        | freedTwice => rfl
    · simp only [large, decide_false, Bool.and_false, Bool.false_eq_true, if_false]
      rfl

/-- The fast paths return what the full sort returns, but where a head slips. -/
theorem fast_paths_iff (x : ExpLog K) {s : Sampler K} (warm : 0 < s.temp) (logits : List K) :
    samplePick x s logits none = some (fullSortPick x s logits) ↔ ¬Slips x s logits := by
  rw [sample_pick_eq x warm]
  unfold fullSortPick Slips
  dsimp only
  have size := cands_length s.temp (penalise s logits)
  rw [penalise_length] at size ⊢
  have once := cands_once s.temp (penalise s logits)
  generalize cands s.temp (penalise s logits) = c at size once
  rw [← size]
  by_cases few : wantedK s c.length < c.length
  · rw [if_pos few]
    refine ⟨fun _ => ?_, fun _ => rfl⟩
    rintro ⟨_, all, _⟩
    omega
  · have all : wantedK s c.length = c.length := Nat.le_antisymm (wanted_le s c.length) (not_lt.mp few)
    have whole : (sortCands c).take c.length = sortCands c := by
      apply List.take_of_length_le
      rw [(sort_perm c).length_eq]
    have full : some ((pickScaled x s s.rng ((sortCands c).take (wantedK s c.length)) 0 (-1)).token,
        (pickScaled x s s.rng ((sortCands c).take (wantedK s c.length)) 0 (-1)).rng) =
        settle x s c (-1) (.retreat s.rng) := by
      rw [all, whole]
      rfl
    rw [if_neg few, full]
    by_cases large : 4096 ≤ c.length
    · rw [if_pos large]
      have some_ : c ≠ [] := by
        intro nothing
        rw [nothing] at large
        exact absurd large (Nat.not_succ_le_zero 4095)
      have low := first_threshold x
      by_cases unfiltered : ¬s.topP < 1 ∧ ¬s.minP > 0
      · rw [if_pos unfiltered]
        have drawn : settle x s c (rngF32 K s.rng) (.retreat (rngNext s.rng)) =
            settle x s c (-1) (.retreat s.rng) := by
          unfold settle
          dsimp only
          rw [pick_drawn]
        refine ⟨fun _ slips => unfiltered.2 slips.2.2.2.1, fun _ => ?_⟩
        rcases head_from_agrees x s c (rngF32 K s.rng) (rngNext s.rng)
            (fun t low' enough => head_end_unfiltered x some_ unfiltered.1 unfiltered.2 _
              (draw_range s.rng) low' enough) 6 low with same | same
        · rw [same, drawn]
        · rw [same, settle_full, drawn]
      · rw [if_neg unfiltered]
        by_cases top : s.topP < 1
        · refine ⟨fun _ slips => slips.2.2.1 top, fun _ => ?_⟩
          rcases head_from_agrees x s c (-1) s.rng
              (fun t low' enough => head_end_top_p x some_ top s.rng low' enough) 6 low with
            same | same
          · rw [same]
          · rw [same, settle_full]
        · have filters : 0 < s.minP := by
            by_contra none_
            exact unfiltered ⟨top, none_⟩
          rw [min_p_settles x some_ once top filters]
          apply not_congr
          exact ⟨fun slips => ⟨large, all, top, filters, slips⟩, fun slips => slips.2.2.2.2⟩
    · rw [if_neg large]
      exact ⟨fun _ slips => large slips.1, fun _ => rfl⟩

/-- A call without a constraint, and the selection for every array. -/
theorem sample_pick_exact_iff (x : ExpLog K) {s : Sampler K} (warm : 0 < s.temp) (logits : List K) :
    (samplePick x s logits none = some (fullSortPick x s logits) ↔ ¬Slips x s logits) ∧
      ∀ (c : Nat → Cand K) (n k : Nat), (cells (Selection.selectTopk c n k) n).Perm (cells c n) ∧
        Selection.Parted n (Selection.selectTopk c n k) k :=
  ⟨fast_paths_iff x warm logits, fun c n k => Selection.select_topk_spec c n k⟩

end

/-! ## A steep vocabulary -/

/-- A rational stand-in for `expf` and `logf`. -/
def rationalExp : ExpLog ℚ where
  exp := fun x => if 0 ≤ x then 1 + x else 1 / (1 - x)
  log := fun y => if 1 ≤ y then y - 1 else 1 - 1 / y
  mono := by
    intro x y less
    dsimp only
    by_cases first : 0 ≤ x
    · rw [if_pos first, if_pos (first.trans (le_of_lt less))]
      linarith
    · rw [if_neg first]
      rw [not_le] at first
      by_cases second : 0 ≤ y
      · rw [if_pos second]
        have small : 1 / (1 - x) < 1 := by
          rw [div_lt_one (by linarith)]
          linarith
        linarith
      · rw [if_neg second]
        rw [not_le] at second
        exact one_div_lt_one_div_of_lt (by linarith) (by linarith)
  pos := by
    intro x
    split
    · next up => linarith
    · next down =>
      rw [not_le] at down
      exact one_div_pos.mpr (by linarith)
  zero := by
    rw [if_pos (le_refl _), add_zero]
  exp_log := by
    intro y some_
    by_cases large : 1 ≤ y
    · rw [if_pos large, if_pos (by linarith)]
      ring
    · rw [if_neg large]
      rw [not_le] at large
      have more : 1 < 1 / y := one_lt_one_div some_ large
      rw [if_neg (by linarith), sub_sub_cancel, one_div_one_div]

/-- Two of three tokens are wanted. -/
def twoOfThree : Sampler ℚ where
  temp := 1
  topP := 1
  minP := 0
  repeatPenalty := 1
  topK := 2
  rng := 1099511627776
  recent := []
  noPenalty := []

/-- The selection path picks what the full sort picks. -/
theorem two_of_three_exact :
    samplePick rationalExp twoOfThree [1, 3, 2] none =
      some (fullSortPick rationalExp twoOfThree [1, 3, 2]) := by
  apply (sample_pick_exact_iff rationalExp (show (0 : ℚ) < 1 from one_pos) [1, 3, 2]).1.mpr
  intro slips
  exact absurd slips.1 (by decide)

/-- Min-p alone, over two likely tokens and thousands of unlikely ones. -/
def minPOnly : Sampler ℚ := { twoOfThree with minP := 1 / 2, topK := 0, rng := 35184372088832 }

def steepLogits (n : Nat) : List ℚ := 0 :: 0 :: List.replicate n (-2047)

theorem steep_cands (n : Nat) : cands 1 (steepLogits n) =
    { p := 0, id := 0 } :: { p := 0, id := 1 } ::
      (List.range n).map fun i => { p := -2047, id := i + 2 } := by
  have size : (steepLogits n).length = n + 1 + 1 := by
    unfold steepLogits
    rw [List.length_cons, List.length_cons, List.length_replicate]
  unfold cands cells
  rw [size, List.range_succ_eq_map, List.range_succ_eq_map, List.map_cons, List.map_cons,
    List.map_map, List.map_cons, List.map_map, List.cons.injEq, List.cons.injEq]
  refine ⟨?_, ?_, ?_⟩
  · unfold cand steepLogits
    rw [List.getD_cons_zero, div_one]
  · show cand 1 (steepLogits n) 1 = _
    unfold cand steepLogits
    rw [List.getD_cons_succ, List.getD_cons_zero, div_one]
  · apply List.map_congr_left
    intro i member
    have inside : i < (List.replicate n (-2047 : ℚ)).length := by
      rw [List.length_replicate]
      exact List.mem_range.mp member
    show cand 1 (steepLogits n) (i + 1 + 1) = _
    unfold cand steepLogits
    rw [List.getD_cons_succ, List.getD_cons_succ, List.getD_eq_getElem _ _ inside,
      List.getElem_replicate, div_one]

theorem steep_max (n : Nat) : maxLogit (cands 1 (steepLogits n)) = 0 := by
  rw [steep_cands]
  show ((List.range n).map fun i => ({ p := -2047, id := i + 2 } : Cand ℚ)).foldl
    (fun mx v => if v.p > mx then v.p else mx) 0 = 0
  generalize List.range n = ids
  induction ids with
  | nil => rfl
  | cons i ids induction =>
      rw [List.map_cons, List.foldl_cons, if_neg (by norm_num)]
      exact induction

theorem steep_head (n : Nat) :
    headAt (cands 1 (steepLogits n)) (-1023) = [{ p := 0, id := 0 }, { p := 0, id := 1 }] := by
  unfold headAt
  rw [steep_max, steep_cands, List.filter_cons_of_pos (by norm_num),
    List.filter_cons_of_pos (by norm_num), List.cons.injEq, List.cons.injEq]
  refine ⟨rfl, rfl, List.filter_eq_nil_iff.mpr fun v member => ?_⟩
  rcases List.mem_map.mp member with ⟨i, _, same⟩
  rw [← same, decide_eq_true_eq]
  norm_num

theorem steep_total (n : Nat) : totalMass rationalExp (cands 1 (steepLogits n)) = 2 + n / 2048 := by
  unfold totalMass
  rw [steep_max, steep_cands, List.map_cons, List.map_cons, List.map_map, List.sum_cons,
    List.sum_cons]
  have each : (List.range n).map ((fun v : Cand ℚ => rationalExp.exp (v.p - 0)) ∘
      fun i => { p := -2047, id := i + 2 }) = List.replicate n (1 / 2048) := by
    rw [List.eq_replicate_iff, List.length_map, List.length_range]
    refine ⟨rfl, fun y member => ?_⟩
    rcases List.mem_map.mp member with ⟨i, _, same⟩
    rw [← same]
    show rationalExp.exp (-2047 - 0) = 1 / 2048
    unfold rationalExp
    norm_num
  rw [each, List.sum_replicate]
  show rationalExp.exp (0 - 0) + (rationalExp.exp (0 - 0) + _) = _
  rw [sub_zero, rationalExp.zero, nsmul_eq_mul, mul_one_div]
  ring

theorem steep_slips : Slips rationalExp minPOnly (steepLogits 4096) := by
  have size : (steepLogits 4096).length = 4098 := by
    unfold steepLogits
    rw [List.length_cons, List.length_cons, List.length_replicate]
  have same : penalise minPOnly (steepLogits 4096) = steepLogits 4096 :=
    if_neg fun both => both.2 rfl
  have threshold : minPThreshold rationalExp minPOnly.minP 6 (rationalExp.log (1 / 1024)) =
      some (-1023) := by
    have first : rationalExp.log (1 / 1024) = -1023 := by
      unfold rationalExp
      norm_num
    have floor : rationalExp.log minPOnly.minP = -1 := by
      unfold rationalExp minPOnly
      norm_num
    rw [first]
    unfold minPThreshold
    rw [floor, if_pos (by norm_num)]
  have weighed : headWeights rationalExp (cands 1 (steepLogits 4096)) (-1023) =
      [{ p := 1, id := 0 }, { p := 1, id := 1 }] := by
    have sorted : sortCands [({ p := 0, id := 0 } : Cand ℚ), { p := 0, id := 1 }] =
        [{ p := 0, id := 0 }, { p := 0, id := 1 }] := rfl
    unfold headWeights
    rw [steep_head, steep_max, sorted]
    show [({ p := rationalExp.exp (0 - 0), id := 0 } : Cand ℚ),
      { p := rationalExp.exp (0 - 0), id := 1 }] = _
    rw [sub_zero, rationalExp.zero]
  have part : headMass rationalExp (cands 1 (steepLogits 4096)) (-1023) = 2 := by
    unfold headMass
    rw [steep_head, steep_max]
    show rationalExp.exp (0 - 0) + (rationalExp.exp (0 - 0) + 0) = 2
    rw [sub_zero, rationalExp.zero]
    norm_num
  have draw : rngF32 ℚ minPOnly.rng = 4491296 / 16777216 := by
    have bits : (rngNext minPOnly.rng >>> 40).toNat = 4491296 := by decide
    unfold rngF32
    rw [bits]
    norm_num
  refine ⟨by rw [size]; omega, rfl, by unfold minPOnly twoOfThree; norm_num,
    by unfold minPOnly; norm_num, -1023, threshold, ?_⟩
  have warm : minPOnly.temp = 1 := rfl
  rw [same, warm]
  refine ⟨?_, ?_, ?_, 0, ?_, ?_, ?_⟩
  · rw [steep_head]
    decide
  · rw [steep_head, cands_length, size]
    decide
  · rw [weighed]
    intro v second
    rw [List.tail_cons, List.mem_singleton] at second
    rw [second]
    unfold minPOnly
    norm_num
  · rw [steep_head]
    decide
  · show _ < mass ((headWeights rationalExp (cands 1 (steepLogits 4096)) (-1023)).take 1)
    rw [weighed, part, draw]
    show _ < (1 : ℚ) + 0
    norm_num
  · show mass ((headWeights rationalExp (cands 1 (steepLogits 4096)) (-1023)).take 1) ≤ _
    rw [weighed, steep_total, draw]
    show (1 : ℚ) + 0 ≤ _
    norm_num

/-- The head is the two best tokens and is not renormalised: the draw lands on the second of
them, and in the full sort on the first. -/
theorem steep_vocabulary_inexact : samplePick rationalExp minPOnly (steepLogits 4096) none ≠
    some (fullSortPick rationalExp minPOnly (steepLogits 4096)) := by
  intro same
  exact (fast_paths_iff rationalExp (show (0 : ℚ) < 1 from one_pos) _).mp same steep_slips

end GridcoreRunner.Sampling
