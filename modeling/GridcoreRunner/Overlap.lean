import Mathlib.Data.List.Infix
import Mathlib.Tactic.Common

/-!
# Searching for one word, a letter at a time

The state of the search is how many letters of the word the text so far may have
begun: the longest end of the text that begins the word. The word has been found
when that is all of it, and the first time this happens is its first occurrence.
-/

namespace GridcoreRunner.Overlap

set_option autoImplicit false

/-- A search from the bound downwards. -/
theorem find_down (p : Nat → Bool) (bound : Nat) :
    match (List.range bound).reverse.find? p with
    | some k => k < bound ∧ p k = true ∧ ∀ j, k < j → j < bound → p j = false
    | none => ∀ j < bound, p j = false := by
  induction bound with
  | zero => simp
  | succ bound induction =>
      rw [List.range_succ, List.reverse_append, List.reverse_singleton, List.singleton_append,
        List.find?_cons]
      cases here : p bound with
      | true => exact ⟨Nat.lt_succ_self _, here, fun j above below => by omega⟩
      | false =>
          cases found : (List.range bound).reverse.find? p with
          | none =>
              rw [found] at induction
              intro j below
              rcases Nat.lt_succ_iff_lt_or_eq.mp below with less | same
              · exact induction j less
              · rw [same]
                exact here
          | some k =>
              rw [found] at induction
              refine ⟨by omega, induction.2.1, ?_⟩
              intro j above below
              rcases Nat.lt_succ_iff_lt_or_eq.mp below with less | same
              · exact induction.2.2 j above less
              · rw [same]
                exact here

variable {α : Type*}

/-- The text ends with the first `count` letters of the word. -/
def Ends (word text : List α) (count : Nat) : Prop :=
  count ≤ word.length ∧ word.take count <:+ text

/-- No longer beginning of the word ends the text. -/
def Longest (word text : List α) (count : Nat) : Prop :=
  Ends word text count ∧ ∀ other, Ends word text other → other ≤ count

theorem ends_zero (word text : List α) : Ends word text 0 := by
  refine ⟨Nat.zero_le _, ?_⟩
  rw [List.take_zero]
  exact List.nil_suffix

theorem longest_nil (word : List α) : Longest word [] 0 := by
  refine ⟨ends_zero word [], ?_⟩
  rintro other ⟨bound, ends⟩
  have empty := List.suffix_nil.mp ends
  have size := congrArg List.length empty
  rw [List.length_take, List.length_nil] at size
  omega

theorem Longest.unique {word text : List α} {count other : Nat} (one : Longest word text count)
    (two : Longest word text other) : count = other :=
  Nat.le_antisymm (two.2 count one.1) (one.2 other two.1)

/-- What ends a text with one more letter ended the text before that letter. -/
theorem ends_snoc {word text : List α} {c : α} {count : Nat} :
    Ends word (text ++ [c]) (count + 1) ↔
      Ends word text count ∧ word[count]? = some c := by
  constructor
  · rintro ⟨bound, front, spelled⟩
    have letter : word.take (count + 1) = word.take count ++ [word[count]] :=
      List.take_succ_eq_append_getElem (by omega)
    rw [letter, ← List.append_assoc] at spelled
    have parts := List.append_inj' spelled rfl
    have same : word[count] = c := by simpa using parts.2
    refine ⟨⟨by omega, front, parts.1⟩, ?_⟩
    rw [List.getElem?_eq_getElem (by omega), same]
  · rintro ⟨⟨bound, front, spelled⟩, next⟩
    have inside : count < word.length := (List.getElem?_eq_some_iff.mp next).1
    have letter : word.take (count + 1) = word.take count ++ [c] := by
      rw [List.take_add_one, next]
      rfl
    refine ⟨inside, front, ?_⟩
    rw [letter, ← List.append_assoc, spelled]

/-- What ends a longer text began before it was lengthened. -/
theorem ends_append {word text more : List α} {count : Nat} (ends : Ends word (text ++ more) count) :
    Ends word text (count - more.length) := by
  induction more using List.reverseRecOn generalizing count with
  | nil =>
      rw [List.append_nil] at ends
      exact ends
  | append_singleton more c induction =>
      rw [List.length_append, List.length_singleton]
      cases count with
      | zero =>
          rw [Nat.zero_sub]
          exact ends_zero _ _
      | succ count =>
          rw [← List.append_assoc] at ends
          rw [Nat.add_sub_add_right]
          exact induction (ends_snoc.mp ends).1

/-- Only the letters the search remembers matter to its next step. -/
theorem ends_remembered {word text : List α} {c : α} {count next : Nat}
    (longest : Longest word text count) :
    Ends word (text ++ [c]) next ↔ Ends word (word.take count ++ [c]) next := by
  cases next with
  | zero => exact ⟨fun _ => ends_zero _ _, fun _ => ends_zero _ _⟩
  | succ next =>
      rw [ends_snoc, ends_snoc]
      apply and_congr_left
      intro _
      constructor
      · rintro ⟨bound, ends⟩
        refine ⟨bound, ?_⟩
        have fewer := longest.2 next ⟨bound, ends⟩
        apply List.suffix_of_suffix_length_le ends longest.1.2
        rw [List.length_take, List.length_take]
        omega
      · rintro ⟨bound, ends⟩
        exact ⟨bound, ends.trans longest.1.2⟩

/-- All of the word ends the text when the search has all of it. -/
theorem found_iff {word text : List α} {count : Nat} (longest : Longest word text count) :
    count = word.length ↔ word <:+ text := by
  constructor
  · rintro rfl
    have ends := longest.1.2
    rwa [List.take_length] at ends
  · intro ends
    have all : Ends word text word.length := ⟨Nat.le_refl _, by rwa [List.take_length]⟩
    exact Nat.le_antisymm longest.1.1 (longest.2 _ all)

/-- The word stands at this place of the text and at none before it. -/
def First (word text : List α) (index : Nat) : Prop :=
  word <+: text.drop index ∧ ∀ earlier < index, ¬word <+: text.drop earlier

theorem first_unique {word text : List α} {one two : Nat} (here : First word text one)
    (there : First word text two) : one = two := by
  rcases Nat.lt_trichotomy one two with less | same | more
  · exact absurd here.1 (there.2 one less)
  · exact same
  · exact absurd there.1 (here.2 two more)

/-- The word ends the text up to its end and no shorter beginning of the text. -/
theorem first_of_ends {word front back : List α} (ends : word <:+ front)
    (unseen : ∀ shorter, shorter <+: front → shorter ≠ front → ¬word <:+ shorter) :
    First word (front ++ back) (front.length - word.length) := by
  rcases ends with ⟨lead, rfl⟩
  have place : (lead ++ word).length - word.length = lead.length := by simp
  rw [place]
  constructor
  · simp
  · rintro earlier before ⟨rest, stands⟩
    have split : (lead ++ word ++ back).take (earlier + word.length) =
        (lead ++ word).take (earlier + word.length) := by
      apply List.take_append_of_le_length
      rw [List.length_append]
      omega
    have found : word <:+ (lead ++ word).take (earlier + word.length) := by
      rw [← split, List.take_add, ← stands]
      simp
    apply unseen _ (List.take_prefix _ _) _ found
    intro whole
    have size := congrArg List.length whole
    rw [List.length_take, List.length_append] at size
    omega

/-- A word that nowhere ends a beginning of the text does not stand in it. -/
theorem absent_of_unseen {word text : List α}
    (unseen : ∀ shorter, shorter <+: text → ¬word <:+ shorter) (index : Nat) :
    ¬word <+: text.drop index := by
  rintro ⟨rest, stands⟩
  apply unseen (text.take index ++ word)
  · refine ⟨rest, ?_⟩
    rw [List.append_assoc, stands, List.take_append_drop]
  · exact ⟨_, rfl⟩

end GridcoreRunner.Overlap
