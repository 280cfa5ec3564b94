import Mathlib.Data.List.Basic
import Mathlib.Order.Lattice
import Mathlib.Tactic.Common

/-!
# Greedy merging of neighbours

A list whose adjacent entries are merged as long as some pair has a key, each time
the pair of the least key and of those the leftmost. The result is unique, and a
single scan from the left finds the next pair.
-/

namespace GreedyMerge

set_option autoImplicit false

variable {α β κ : Type} [LinearOrder κ]

/-- The adjacent pairs. -/
def pairs (xs : List α) : List (α × α) := xs.zip xs.tail

@[simp] theorem pairs_cons_cons (a b : α) (xs : List α) :
    pairs (a :: b :: xs) = (a, b) :: pairs (b :: xs) := by
  simp [pairs]

@[simp] theorem pairs_nil : pairs ([] : List α) = [] := by simp [pairs]

@[simp] theorem pairs_one (a : α) : pairs [a] = [] := by simp [pairs]

theorem pairs_map (f : α → β) (xs : List α) :
    pairs (xs.map f) = (pairs xs).map fun p => (f p.1, f p.2) := by
  induction xs with
  | nil => simp
  | cons a xs ih =>
      cases xs with
      | nil => simp
      | cons b xs => simpa using ih

theorem pairs_append (front : List α) (l r : α) (back : List α) :
    pairs (front ++ l :: r :: back) = pairs (front ++ [l]) ++ (l, r) :: pairs (r :: back) := by
  induction front with
  | nil => simp
  | cons a front ih =>
      cases front with
      | nil => simp
      | cons b front =>
          simp only [List.cons_append, pairs_cons_cons] at ih ⊢
          rw [ih]

theorem mem_pairs {xs : List α} {a b : α} (adjacent : (a, b) ∈ pairs xs) :
    ∃ front back, xs = front ++ a :: b :: back := by
  induction xs with
  | nil => simp at adjacent
  | cons c xs ih =>
      cases xs with
      | nil => simp at adjacent
      | cons d xs =>
          rw [pairs_cons_cons, List.mem_cons] at adjacent
          rcases adjacent with here | later
          · cases here
            exact ⟨[], xs, rfl⟩
          · rcases ih later with ⟨front, back, split⟩
            exact ⟨c :: front, back, by rw [split, List.cons_append]⟩

theorem pairs_inside {front mid back : List α} {p : α × α} (adjacent : p ∈ pairs mid) :
    p ∈ pairs (front ++ mid ++ back) := by
  rcases mem_pairs adjacent with ⟨before, after, split⟩
  have whole : front ++ mid ++ back = (front ++ before) ++ p.1 :: p.2 :: (after ++ back) := by
    rw [split]
    simp
  rw [whole, pairs_append]
  simp

/-- The pairs around one entry. -/
theorem pairs_around {front back : List α} {a : α} {p : α × α}
    (adjacent : p ∈ pairs (front ++ a :: back)) :
    p ∈ pairs front ∨ (front.getLast? = some p.1 ∧ p.2 = a) ∨
      (p.1 = a ∧ back.head? = some p.2) ∨ p ∈ pairs back := by
  have right : ∀ q ∈ pairs (a :: back), (q.1 = a ∧ back.head? = some q.2) ∨ q ∈ pairs back := by
    intro q inside
    cases back with
    | nil => simp at inside
    | cons b back =>
        rw [pairs_cons_cons, List.mem_cons] at inside
        rcases inside with here | later
        · left
          rw [here]
          exact ⟨rfl, rfl⟩
        · exact Or.inr later
  rcases List.eq_nil_or_concat front with none_left | ⟨front', b, last⟩
  · subst none_left
    exact Or.inr (Or.inr (right p adjacent))
  · subst last
    rw [List.concat_eq_append] at adjacent ⊢
    rw [List.append_assoc, List.singleton_append, pairs_append, List.mem_append,
      List.mem_cons] at adjacent
    rcases adjacent with before | here | after
    · exact Or.inl before
    · right
      left
      rw [here]
      simp
    · exact Or.inr (Or.inr (right p after))

/-- The pair between `front` and `back` is the next to merge. -/
structure Best (key : α → α → Option κ) (front : List α) (l r : α) (back : List α) (k : κ) :
    Prop where
  keyed : key l r = some k
  before : ∀ p ∈ pairs (front ++ [l]), ∀ other, key p.1 p.2 = some other → k < other
  after : ∀ p ∈ pairs (r :: back), ∀ other, key p.1 p.2 = some other → k ≤ other

/-- No pair has a key. -/
def Stuck (key : α → α → Option κ) (xs : List α) : Prop := ∀ p ∈ pairs xs, key p.1 p.2 = none

/-- The list `xs` is merged into `out`. -/
inductive Merges (key : α → α → Option κ) (glue : α → α → α) : List α → List α → Prop
  | stuck (xs : List α) (none_left : Stuck key xs) : Merges key glue xs xs
  | step (front : List α) (l r : α) (back : List α) (k : κ) (out : List α)
      (best : Best key front l r back k) (rest : Merges key glue (front ++ glue l r :: back) out) :
      Merges key glue (front ++ l :: r :: back) out

variable {key : α → α → Option κ} {glue : α → α → α}

theorem best_not_stuck {front back : List α} {l r : α} {k : κ}
    (best : Best key front l r back k) : ¬Stuck key (front ++ l :: r :: back) := by
  intro stuck
  have unkeyed := stuck (l, r) (by simp [pairs_append])
  rw [best.keyed] at unkeyed
  cases unkeyed

/-- What every merge of a keyed pair preserves holds of the result. -/
theorem merges_preserve {motive : List α → Prop} {xs out : List α} (merges : Merges key glue xs out)
    (start : motive xs)
    (step : ∀ front l r back k, key l r = some k → motive (front ++ l :: r :: back) →
      motive (front ++ glue l r :: back)) : motive out := by
  induction merges with
  | stuck xs none_left => exact start
  | step front l r back k out best rest ih => exact ih (step front l r back k best.keyed start)

/-- Of two pairs that are next to merge, the second does not stand further right. -/
theorem best_front_le {front back front' back' : List α} {l r l' r' : α} {k k' : κ}
    (best : Best key front l r back k) (best' : Best key front' l' r' back' k')
    (same : front ++ l :: r :: back = front' ++ l' :: r' :: back') :
    front'.length ≤ front.length := by
  by_contra longer
  rcases List.append_eq_append_iff.mp same with ⟨middle, first, second⟩ | ⟨middle, first, second⟩
  · cases middle with
    | nil =>
        simp only [List.append_nil] at first
        rw [first] at longer
        omega
    | cons a middle =>
        rw [List.cons_append] at second
        injection second with head tail
        subst head
        have inside' : (l', r') ∈ pairs (r :: back) := by
          rw [tail]
          cases middle with
          | nil => simp [pairs]
          | cons b middle =>
              rw [List.cons_append] at tail ⊢
              have split := pairs_append (b :: middle) l' r' back'
              rw [List.cons_append] at split
              rw [split]
              simp
        have inside : (l, r) ∈ pairs (front' ++ [l']) := by
          rw [first]
          cases middle with
          | nil =>
              rw [List.nil_append] at tail
              injection tail with head _
              subst head
              rw [List.append_assoc]
              rw [show [l] ++ [r] = l :: r :: [] by rfl, pairs_append]
              simp
          | cons b middle =>
              rw [List.cons_append] at tail
              injection tail with head _
              subst head
              rw [List.append_assoc, List.cons_append, List.cons_append, pairs_append]
              simp
        have lower := best'.before (l, r) inside k best.keyed
        have upper := best.after (l', r') inside' k' best'.keyed
        exact absurd lower (not_lt.mpr upper)
  · rw [first] at longer
    simp at longer

/-- The result of merging is unique. -/
theorem merges_unique {xs out out' : List α} (merges : Merges key glue xs out)
    (merges' : Merges key glue xs out') : out = out' := by
  induction merges generalizing out' with
  | stuck xs none_left =>
      cases merges' with
      | stuck _ _ => rfl
      | step front l r back k _ best rest => exact absurd none_left (best_not_stuck best)
  | step front l r back k out best rest ih =>
      generalize whole : front ++ l :: r :: back = xs at merges'
      cases merges' with
      | stuck _ none_left =>
          rw [← whole] at none_left
          exact absurd none_left (best_not_stuck best)
      | step front' l' r' back' k' _ best' rest' =>
          have right := best_front_le best best' whole
          have left := best_front_le best' best whole.symm
          have split := List.append_inj whole (by omega)
          rcases split with ⟨fronts, tails⟩
          injection tails with ls tails
          injection tails with rs backs
          apply ih
          rw [fronts, ls, rs, backs]
          exact rest'

/-- Merging commutes with a map that keeps the keys and the glue. -/
theorem best_map (f : α → β) {key' : β → β → Option κ} (keys : ∀ a b, key a b = key' (f a) (f b))
    {front back : List α} {l r : α} {k : κ} (best : Best key front l r back k) :
    Best key' (front.map f) (f l) (f r) (back.map f) k := by
  constructor
  · rw [← keys]
    exact best.keyed
  · intro p inside other keyed
    have mapped : front.map f ++ [f l] = (front ++ [l]).map f := by simp
    rw [mapped, pairs_map, List.mem_map] at inside
    rcases inside with ⟨q, inside, image⟩
    subst image
    rw [← keys] at keyed
    exact best.before q inside other keyed
  · intro p inside other keyed
    rw [← List.map_cons, pairs_map, List.mem_map] at inside
    rcases inside with ⟨q, inside, image⟩
    subst image
    rw [← keys] at keyed
    exact best.after q inside other keyed

omit [LinearOrder κ] in
theorem stuck_map (f : α → β) {key' : β → β → Option κ} (keys : ∀ a b, key a b = key' (f a) (f b))
    {xs : List α} (stuck : Stuck key xs) : Stuck key' (xs.map f) := by
  intro p inside
  rw [pairs_map, List.mem_map] at inside
  rcases inside with ⟨q, inside, image⟩
  subst image
  rw [← keys]
  exact stuck q inside

/-! ## One scan -/

/-- What a scan remembers of the pairs it has seen: the least key, and the left
entry of the first pair that has it. -/
def consider (key : α → α → Option κ) (best : Option (κ × α)) (a b : α) : Option (κ × α) :=
  match key a b with
  | none => best
  | some k =>
      match best with
      | none => some (k, a)
      | some (least, i) => if k < least then some (k, a) else some (least, i)

/-- What the scan of `xs` turns `best` into: the scan's own best pair where that is
strictly better, else `best`. -/
theorem scan_spec (key : α → α → Option κ) (xs : List α) (best : Option (κ × α)) :
    let last := (pairs xs).foldl (fun best p => consider key best p.1 p.2) best
    (last = best ∧ ∀ p ∈ pairs xs, ∀ other, key p.1 p.2 = some other →
      ∃ least i, best = some (least, i) ∧ least ≤ other) ∨
    ∃ front l r back k, xs = front ++ l :: r :: back ∧ last = some (k, l) ∧
      Best key front l r back k ∧ ∀ least i, best = some (least, i) → k < least := by
  induction xs generalizing best with
  | nil => simp
  | cons a xs ih =>
      cases xs with
      | nil => simp
      | cons b xs =>
          simp only [pairs_cons_cons, List.foldl_cons]
          rcases ih (consider key best a b) with ⟨same, others⟩ | ⟨front, l, r, back, k, split, last, found, less⟩
          · rcases unkeyed : key a b with _ | k
            · left
              have kept : consider key best a b = best := by simp [consider, unkeyed]
              rw [kept] at same others ⊢
              constructor
              · exact same
              · intro p inside other keyed
                rcases List.mem_cons.mp inside with here | later
                · subst here
                  simp only [unkeyed] at keyed
                  cases keyed
                · exact others p later other keyed
            · by_cases better : ∀ least i, best = some (least, i) → k < least
              · right
                have taken : consider key best a b = some (k, a) := by
                  rcases best with _ | ⟨least, i⟩
                  · simp [consider, unkeyed]
                  · simp [consider, unkeyed, better least i rfl]
                refine ⟨[], a, b, xs, k, rfl, by rw [same, taken], ⟨unkeyed, by simp, ?_⟩, better⟩
                intro p inside other keyed
                rcases others p inside other keyed with ⟨least, i, at_, bound⟩
                rw [taken] at at_
                cases at_
                exact bound
              · left
                push Not at better
                rcases better with ⟨least, i, at_, bound⟩
                have kept : consider key best a b = best := by
                  simp [consider, unkeyed, at_, not_lt.mpr bound]
                rw [kept] at same others ⊢
                constructor
                · exact same
                · intro p inside other keyed
                  rcases List.mem_cons.mp inside with here | later
                  · subst here
                    simp only [unkeyed, Option.some.injEq] at keyed
                    subst keyed
                    exact ⟨least, i, at_, bound⟩
                  · exact others p later other keyed
          · right
            refine ⟨a :: front, l, r, back, k, by rw [split]; rfl, last, ?_, ?_⟩
            · refine ⟨found.keyed, ?_, found.after⟩
              intro p inside other keyed
              have split_front : p = (a, b) ∨ p ∈ pairs (front ++ [l]) := by
                cases front with
                | nil =>
                    simp only [List.nil_append] at split
                    injection split with head _
                    subst head
                    simpa using inside
                | cons c front =>
                    simp only [List.cons_append] at split
                    injection split with head _
                    subst head
                    simpa using inside
              rcases split_front with here | later
              · subst here
                simp only [consider] at less
                rw [keyed] at less
                rcases best with _ | ⟨least, i⟩
                · exact less other a rfl
                · simp only at less
                  split_ifs at less with lower
                  · exact less other a rfl
                  · exact lt_of_lt_of_le (less least i rfl) (not_lt.mp lower)
              · exact found.before p later other keyed
            · intro least i at_
              subst at_
              simp only [consider] at less
              rcases keyed : key a b with _ | other
              · rw [keyed] at less
                exact less least i rfl
              · rw [keyed] at less
                simp only at less
                split_ifs at less with lower
                · exact lt_trans (less other a rfl) lower
                · exact less least i rfl

/-- A scan from nothing finds the next pair, or there is none. -/
theorem scan_finds (key : α → α → Option κ) (xs : List α) :
    let last := (pairs xs).foldl (fun best p => consider key best p.1 p.2) none
    (last = none ∧ Stuck key xs) ∨
    ∃ front l r back k, xs = front ++ l :: r :: back ∧ last = some (k, l) ∧
      Best key front l r back k := by
  rcases scan_spec key xs none with ⟨same, others⟩ | ⟨front, l, r, back, k, split, last, found, _⟩
  · left
    constructor
    · exact same
    · intro p inside
      rcases keyed : key p.1 p.2 with _ | other
      · rfl
      · rcases others p inside other keyed with ⟨least, i, absent, _⟩
        cases absent
  · right
    exact ⟨front, l, r, back, k, split, last, found⟩

end GreedyMerge
