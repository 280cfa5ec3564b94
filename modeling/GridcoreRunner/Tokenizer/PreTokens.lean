import GridcoreRunner.Tokenizer.Vocabulary
import GridcoreRunner.Tokenizer.SplitPasses

/-!
# Pre-tokens

`bpe_encode_text` picks a splitter by the vocabulary's `tokenizer.ggml.pre`. It cuts
as the family's comment documents, but for the two families that split on case.
-/

namespace GridcoreRunner.Tok

set_option autoImplicit false

open Regex

/-- The splitter of a family. -/
def splitNext : Pre → List Nat → Nat
  | .tekken => tekkenSplitNext
  | .llama4 => llama4SplitNext
  | .llama3 => preSplitNext 3
  | .qwen2 => preSplitNext 1
  | .smollm => smollmSplitNext
  | .afmoe => afmoeSplitNext
  | .gpt2 => gpt2SplitNext

/-- The pieces a family's comment documents. -/
def documented : Pre → List Nat → List (List Nat)
  | .tekken => tekkenRe.split
  | .llama4 => llama4Re.split
  | .llama3 => (preRe 3).split
  | .qwen2 => (preRe 1).split
  | .smollm => smollmSpec
  | .afmoe => afmoeSpec
  | .gpt2 => gpt2Re.split

/-- Where the matches of a regex that splits on case start. -/
def casedStarts : Pre → List Nat → List (List Nat)
  | .tekken => tekkenRe.starts
  | .llama4 => llama4Re.starts
  | _ => fun _ => []

theorem pieces_of_agrees {next : List Nat → Nat} {r : Re Nat}
    (agrees : StepAgrees next r fun _ => false) (s : List Nat) : piecesOf next s = r.split s := by
  rw [pieces_iff agrees]
  intro x _
  rfl

/-- A text is cut as documented if and only if no match of a regex that splits on
case starts at a run of capitals behind a caseless letter, or at a combining mark in
front of punctuation or a newline. -/
theorem pieces_documented_iff (pre : Pre) (s : List Nat) :
    piecesOf (splitNext pre) s = documented pre s ↔ ∀ x ∈ casedStarts pre s, caseBad x = false := by
  have uncased : ∀ x ∈ ([] : List (List Nat)), caseBad x = false := by
    intro x inside
    cases inside
  cases pre with
  | tekken => exact pieces_iff tekken_agrees s
  | llama4 => exact pieces_iff llama4_agrees s
  | llama3 => exact iff_of_true (pieces_of_agrees (pre_agrees 3 (by decide)) s) uncased
  | qwen2 => exact iff_of_true (pieces_of_agrees (pre_agrees 1 (by decide)) s) uncased
  | smollm => exact iff_of_true (smollm_pieces s) uncased
  | afmoe => exact iff_of_true (afmoe_pieces s) uncased
  | gpt2 => exact iff_of_true (pieces_of_agrees gpt2_agrees s) uncased

/-- A caseless letter and two capitals: the regex backtracks, the scan does not. -/
theorem capitals_behind_caseless :
    piecesOf (splitNext .tekken) [0x4e2d, 0x41, 0x42] ≠ documented .tekken [0x4e2d, 0x41, 0x42] := by
  decide +kernel

-- the regex takes the mark alone
example : piecesOf (splitNext .llama4) [0x301, 0x21] ≠ documented .llama4 [0x301, 0x21] := by
  decide +kernel

end GridcoreRunner.Tok
