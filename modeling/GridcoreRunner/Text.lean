import Mathlib.Data.List.Basic
import Mathlib.Data.List.Infix
import Mathlib.Tactic.Common

/-!
# Searching a stream for needles

A stream arrives in pieces and is searched for any of several needles. A position
is dead when no continuation of the stream lets a needle begin there; the bytes
in front of the longest overlap of a needle-free text are dead, so they may be
released before the rest of the stream is known.
-/

namespace GridcoreRunner.Text

set_option autoImplicit false

variable {α : Type*} [DecidableEq α]

/-- The first needle, in list order, that the text begins with. -/
def hitAt (needles : List (List α)) (text : List α) : Option (List α) :=
  needles.find? fun needle => needle.isPrefixOf text

/-- The first position at which a needle stands, and that needle. -/
def firstHit (needles : List (List α)) : List α → Option (Nat × List α)
  | [] => none
  | a :: text =>
      match hitAt needles (a :: text) with
      | some needle => some (0, needle)
      | none => (firstHit needles text).map fun hit => (hit.1 + 1, hit.2)

variable {needles : List (List α)} {text : List α}

theorem hit_at_some {needle : List α} (hit : hitAt needles text = some needle) :
    needle ∈ needles ∧ needle <+: text := by
  have begins : needle.isPrefixOf text = true := by
    have found := List.find?_some hit
    exact found
  exact ⟨List.mem_of_find?_eq_some hit, List.isPrefixOf_iff_prefix.mp begins⟩

theorem hit_at_none : hitAt needles text = none ↔ ∀ needle ∈ needles, ¬ needle <+: text := by
  unfold hitAt
  rw [List.find?_eq_none]
  apply forall₂_congr
  intro needle _
  rw [List.isPrefixOf_iff_prefix]

theorem first_hit_some {index : Nat} {needle : List α}
    (hit : firstHit needles text = some (index, needle)) :
    index < text.length ∧ hitAt needles (text.drop index) = some needle := by
  induction text generalizing index with
  | nil => simp [firstHit] at hit
  | cons a text induction =>
      unfold firstHit at hit
      cases here : hitAt needles (a :: text) with
      | some found =>
          rw [here] at hit
          obtain ⟨rfl, rfl⟩ := Prod.mk.inj (Option.some.inj hit)
          exact ⟨by simp, here⟩
      | none =>
          rw [here] at hit
          obtain ⟨later, found, same⟩ := Option.map_eq_some_iff.mp hit
          obtain ⟨rfl, rfl⟩ := Prod.mk.inj same
          have rest := induction found
          exact ⟨by simpa using rest.1, by simpa using rest.2⟩

theorem first_hit_none : firstHit needles text = none ↔
    ∀ index, index < text.length → hitAt needles (text.drop index) = none := by
  induction text with
  | nil => simp [firstHit]
  | cons a text induction =>
      unfold firstHit
      cases here : hitAt needles (a :: text) with
      | some found =>
          simp only [reduceCtorEq, false_iff, not_forall]
          exact ⟨0, by simp, by simp [here]⟩
      | none =>
          simp only [Option.map_eq_none_iff, induction]
          constructor
          · intro rest index bound
            cases index with
            | zero => exact here
            | succ index => simpa using rest index (by simpa using bound)
          · intro all index bound
            simpa using all (index + 1) (by simpa using bound)

/-- Nothing stands in front of the first hit. -/
theorem first_hit_first {index : Nat} {needle : List α}
    (hit : firstHit needles text = some (index, needle)) :
    ∀ earlier < index, hitAt needles (text.drop earlier) = none := by
  induction text generalizing index with
  | nil => simp [firstHit] at hit
  | cons a text induction =>
      intro earlier before
      unfold firstHit at hit
      cases here : hitAt needles (a :: text) with
      | some found =>
          rw [here] at hit
          obtain ⟨rfl, rfl⟩ := Prod.mk.inj (Option.some.inj hit)
          exact absurd before (Nat.not_lt_zero earlier)
      | none =>
          rw [here] at hit
          obtain ⟨later, found, same⟩ := Option.map_eq_some_iff.mp hit
          obtain ⟨rfl, rfl⟩ := Prod.mk.inj same
          cases earlier with
          | zero => exact here
          | succ earlier => exact induction found earlier (Nat.lt_of_succ_lt_succ before)

/-- A hit splits the text at a needle. -/
theorem first_hit_split {index : Nat} {needle : List α}
    (hit : firstHit needles text = some (index, needle)) :
    needle ∈ needles ∧ ∃ back, text = text.take index ++ needle ++ back := by
  obtain ⟨member, back, split⟩ := hit_at_some (first_hit_some hit).2
  refine ⟨member, back, ?_⟩
  rw [List.append_assoc, split, List.take_append_drop]

/-- No needle occurs anywhere, for needles that are not empty. -/
theorem first_hit_none_iff (nonempty : ∀ needle ∈ needles, needle ≠ []) :
    firstHit needles text = none ↔ ∀ needle ∈ needles, ¬ needle <:+: text := by
  rw [first_hit_none]
  constructor
  · rintro absent needle member ⟨front, back, rfl⟩
    have length := List.length_pos_iff.mpr (nonempty needle member)
    have here := hit_at_none.mp (absent front.length (by simp; omega)) needle member
    apply here
    rw [List.append_assoc, List.drop_left]
    exact List.prefix_append _ _
  · intro absent index _
    apply hit_at_none.mpr
    intro needle member begins
    exact absent needle member (begins.isInfix.trans (List.drop_suffix index text).isInfix)

/-- More text does not move the first place of a single needle. -/
theorem first_hit_single_append {needle : List α} {index : Nat} {found : List α}
    (hit : firstHit [needle] text = some (index, found)) (more : List α) :
    firstHit [needle] (text ++ more) = some (index, found) := by
  induction text generalizing index with
  | nil => simp [firstHit] at hit
  | cons a text induction =>
      rw [firstHit] at hit
      rw [List.cons_append, firstHit]
      cases here : hitAt [needle] (a :: text) with
      | some other =>
          rw [here] at hit
          obtain ⟨rfl, rfl⟩ := Prod.mk.inj (Option.some.inj hit)
          obtain ⟨member, begins⟩ := hit_at_some here
          have same : other = needle := List.mem_singleton.mp member
          rw [same] at begins
          have longer : needle <+: a :: (text ++ more) :=
            begins.trans (List.prefix_append (a :: text) more)
          simp [hitAt, longer, same]
      | none =>
          rw [here] at hit
          obtain ⟨⟨later, name⟩, inside, same⟩ := Option.map_eq_some_iff.mp hit
          obtain ⟨rfl, rfl⟩ := Prod.mk.inj same
          obtain ⟨member, back, split⟩ := first_hit_split inside
          rw [List.mem_singleton.mp member] at split
          have long : needle.length ≤ text.length := by
            have length := congrArg List.length split
            simp only [List.length_append] at length
            omega
          have still : hitAt [needle] (a :: (text ++ more)) = none := by
            rw [hit_at_none] at here ⊢
            intro other member begins
            apply here other member
            rw [List.mem_singleton.mp member] at begins ⊢
            exact List.prefix_of_prefix_length_le begins (List.prefix_append (a :: text) more)
              (by simp; omega)
          rw [still, induction inside]
          rfl

/-! ## Dead positions -/

/-- No needle begins here, and none can once the text goes on. -/
def Dead (needles : List (List α)) (text : List α) : Prop :=
  ∀ needle ∈ needles, ¬ needle <+: text ∧ ¬ text <+: needle

omit [DecidableEq α] in
theorem Dead.append (h : Dead needles text) (back : List α) : Dead needles (text ++ back) := by
  intro needle member
  constructor
  · intro begins
    rcases List.prefix_or_prefix_of_prefix begins (List.prefix_append text back) with short | long
    · exact (h needle member).1 short
    · exact (h needle member).2 long
  · intro begins
    exact (h needle member).2 ((List.prefix_append text back).trans begins)

theorem Dead.hit_none (h : Dead needles text) : hitAt needles text = none :=
  hit_at_none.mpr fun needle member => (h needle member).1

/-- Every position of `front` is dead in front of `back`. -/
def AllDead (needles : List (List α)) : List α → List α → Prop
  | [], _ => True
  | a :: front, back => Dead needles (a :: (front ++ back)) ∧ AllDead needles front back

omit [DecidableEq α] in
theorem AllDead.extend {front back : List α} (h : AllDead needles front back) (more : List α) :
    AllDead needles front (back ++ more) := by
  induction front with
  | nil => trivial
  | cons a front induction =>
      apply And.intro _ (induction h.2)
      have longer := h.1.append more
      simpa using longer

omit [DecidableEq α] in
theorem AllDead.append {front middle back : List α} (h : AllDead needles front (middle ++ back))
    (rest : AllDead needles middle back) : AllDead needles (front ++ middle) back := by
  induction front with
  | nil => exact rest
  | cons a front induction =>
      apply And.intro _ (induction h.2)
      have here := h.1
      rw [← List.append_assoc] at here
      exact here

/-- A search need not look at dead positions. -/
theorem first_hit_dead {front back : List α} (h : AllDead needles front back) :
    firstHit needles (front ++ back) =
      (firstHit needles back).map fun hit => (hit.1 + front.length, hit.2) := by
  induction front with
  | nil => simp
  | cons a front induction =>
      rw [List.cons_append, firstHit, h.1.hit_none, induction h.2, Option.map_map]
      congr 1

/-- The longest overlap of a needle-free text with a needle bounds what may still
become a needle. -/
theorem all_dead_of_overlap (absent : firstHit needles text = none) {keep : Nat}
    (bound : ∀ needle ∈ needles, ∀ count, count < needle.length → count ≤ text.length →
      text.drop (text.length - count) <+: needle → count ≤ keep) :
    AllDead needles (text.take (text.length - keep)) (text.drop (text.length - keep)) := by
  induction text with
  | nil => simp [AllDead]
  | cons a text induction =>
      have absent' := first_hit_none.mp absent
      by_cases all : text.length + 1 ≤ keep
      · have none : (a :: text).length - keep = 0 := by
          rw [List.length_cons]
          omega
        rw [none]
        trivial
      · have some : (a :: text).length - keep = text.length - keep + 1 := by
          rw [List.length_cons]
          omega
        rw [some, List.take_succ_cons, List.drop_succ_cons]
        constructor
        · rw [List.take_append_drop]
          intro needle member
          have here := hit_at_none.mp (absent' 0 (by simp)) needle member
          apply And.intro here
          intro begins
          have le := begins.length_le
          rw [List.length_cons] at le
          by_cases full : text.length + 1 = needle.length
          · apply here
            rw [begins.eq_of_length (by simpa using full)]
            exact List.prefix_refl _
          · have := bound needle member (text.length + 1) (by omega) (by simp) (by simpa using begins)
            omega
        · apply induction
          · rw [first_hit_none]
            intro index inside
            simpa using absent' (index + 1) (by simpa using inside)
          · intro needle member count short le overlaps
            apply bound needle member count short (by simp; omega)
            have shift : (a :: text).length - count = text.length - count + 1 := by
              rw [List.length_cons]
              omega
            rw [shift, List.drop_succ_cons]
            exact overlaps

end GridcoreRunner.Text
