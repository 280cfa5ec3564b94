import GridcoreRunner.StableSort
import GridcoreRunner.Tokenizer.Encode

/-!
# Special tokens in a text

The table of special tokens that `tokenizer_init` builds, sorted by falling length and then
regrouped by first byte, and the scan of `tok_encode` with it. The scan holds the place it has
reached and the start of the plain text in front of it.
-/

namespace GridcoreRunner.Tok

set_option autoImplicit false

open GridcoreRunner.StableSort

/-- A tokenizer with what `tok_encode` reads of the begin-of-text token. -/
structure Encoder extends Tokenizer where
  addBos : Bool
  bosId : Option Nat

def tokenAt (t : Tokenizer) (id : Nat) : Bytes := t.tokens.getD id []

/-- Control and user-defined tokens that are not empty. -/
def isSpecial (t : Tokenizer) (id : Nat) : Bool :=
  (typeOf t id == .control || typeOf t id == .userDefined) && !(tokenAt t id).isEmpty

def specialIds (t : Tokenizer) : List Nat := (List.range t.tokens.length).filter (isSpecial t)

/-- `sort_specials`: `cmp_special` puts the longer token in front. -/
def sortSpecials (t : Tokenizer) (ids : List Nat) : List Nat :=
  insertionSort (fun id => (tokenAt t id).length) ids

def firstByte (t : Tokenizer) (id : Nat) : Nat := ((tokenAt t id).headD 0).toNat

def bucketSpecials (t : Tokenizer) (ids : List Nat) : Buckets Nat :=
  countingSort (firstByte t) 256 (fun _ => 0) ids

def specials (t : Tokenizer) : Buckets Nat := bucketSpecials t (sortSpecials t (specialIds t))

/-- The token fits into the rest of the text and stands at its front. -/
def standsAt (t : Tokenizer) (rest : Bytes) (id : Nat) : Bool := (tokenAt t id).isPrefixOf rest

/-- The first match in the group of the byte at the front. -/
def specialAt (t : Tokenizer) (groups : Buckets Nat) : Bytes → Option Nat
  | [] => none
  | b :: rest => (groups.group b.toNat).find? (standsAt t (b :: rest))

/-- The ids of a segment. -/
def segmentIds (t : Tokenizer) (force : Option Bool) (behind : Nat → Bytes) (first : Bool)
    (text : Bytes) : List Nat :=
  match t.model with
  | .spm => spmEncodeText t force text first
  | .bpeSpm => bpeSpmEncodeText t force (behind 0) text
  | .bpe => bpeEncodeText t force behind text

structure EncodeState where
  i : Nat
  seg : Nat
  first : Bool
  out : List Nat

/-- The plain text up to `i`, if there is any. -/
def flush (segment : Nat → Bool → Bytes → List Nat) (text : Bytes) (state : EncodeState) :
    List Nat :=
  if state.seg < state.i then
    state.out ++ segment state.seg state.first
      ((text.drop state.seg).take (state.i - state.seg))
  else state.out

def encodeLoop (t : Tokenizer) (groups : Buckets Nat) (parseSpecial : Bool)
    (segment : Nat → Bool → Bytes → List Nat) (text : Bytes) : Nat → EncodeState → List Nat
  | 0, state => state.out
  | fuel + 1, state =>
      if state.i < text.length then
        match if parseSpecial then specialAt t groups (text.drop state.i) else none with
        | some matched =>
            encodeLoop t groups parseSpecial segment text fuel
              { i := state.i + (tokenAt t matched).length
                seg := state.i + (tokenAt t matched).length
                first := false
                out := flush segment text state ++ [matched] }
        | none =>
            encodeLoop t groups parseSpecial segment text fuel { state with i := state.i + 1 }
      else flush segment text { state with i := text.length }

def bosIds (t : Encoder) (addBos : Bool) : List Nat :=
  if addBos && t.addBos then t.bosId.toList else []

/-- `strlen` finds the end of the text. -/
def cText (text : Bytes) : Bytes := text.takeWhile (· != 0)

/-- `tok_encode`, into an array of `cap` entries. The words of the segment at an offset are encoded
in memory that holds `behind` it. -/
def tokEncode (t : Encoder) (force : Option Bool) (behind : Nat → Nat → Bytes) (text : Bytes)
    (cap : Nat) (addBos parseSpecial : Bool) : List Nat :=
  let text := cText text
  (bosIds t addBos ++ encodeLoop t.toTokenizer (specials t.toTokenizer) parseSpecial
    (fun seg first s => segmentIds t.toTokenizer force (behind seg) first s) text (text.length + 1)
    ⟨0, 0, true, []⟩).take cap

/-! ## The cut -/

def Matches (t : Tokenizer) (rest : Bytes) (id : Nat) : Prop :=
  id ∈ specialIds t ∧ tokenAt t id <+: rest

/-- The longest special token at the front of a text; of equal ones the first of the vocabulary. -/
structure Longest (t : Tokenizer) (rest : Bytes) (id : Nat) : Prop where
  here : Matches t rest id
  longest : ∀ other, Matches t rest other → (tokenAt t other).length ≤ (tokenAt t id).length
  first : ∀ other, Matches t rest other → tokenAt t other = tokenAt t id → id ≤ other

/-- No special token begins inside `s`. -/
def Free (t : Tokenizer) (s rest : Bytes) : Prop :=
  ∀ k < s.length, ∀ id, ¬Matches t ((s ++ rest).drop k) id

inductive Piece
  | plain (s : Bytes)
  | special (id : Nat)

def Piece.bytes (t : Tokenizer) : Piece → Bytes
  | .plain s => s
  | .special id => tokenAt t id

/-- A text cut at the leftmost places where a special token stands. -/
inductive Cut (t : Tokenizer) : Bytes → List Piece → Prop
  | done : Cut t [] []
  | tail {s : Bytes} (some_ : s ≠ []) (free : Free t s []) : Cut t s [.plain s]
  | special {id : Nat} {rest : Bytes} {pieces : List Piece}
      (longest : Longest t (tokenAt t id ++ rest) id) (cut : Cut t rest pieces) :
      Cut t (tokenAt t id ++ rest) (.special id :: pieces)
  | plain {s : Bytes} {id : Nat} {rest : Bytes} {pieces : List Piece} (some_ : s ≠ [])
      (free : Free t s (tokenAt t id ++ rest)) (longest : Longest t (tokenAt t id ++ rest) id)
      (cut : Cut t rest pieces) :
      Cut t (s ++ (tokenAt t id ++ rest)) (.plain s :: .special id :: pieces)

/-- The ids of the pieces. -/
def emitPieces (t : Tokenizer) (segment : Nat → Bool → Bytes → List Nat) :
    Nat → Bool → List Piece → List Nat
  | _, _, [] => []
  | place, first, .plain s :: pieces =>
      segment place first s ++ emitPieces t segment (place + s.length) first pieces
  | place, _, .special id :: pieces =>
      id :: emitPieces t segment (place + (tokenAt t id).length) false pieces

/-- A scan of the whole list sorted by length. -/
def wholeScan (t : Tokenizer) (rest : Bytes) : Option Nat :=
  (sortSpecials t (specialIds t)).find? (standsAt t rest)

/-! ## The match at a place -/

theorem special_token_some {t : Tokenizer} {id : Nat} (special : id ∈ specialIds t) :
    tokenAt t id ≠ [] := by
  have kept := List.of_mem_filter special
  rw [isSpecial, Bool.and_eq_true, Bool.not_eq_true', List.isEmpty_eq_false_iff] at kept
  exact kept.2

theorem special_ids_order (t : Tokenizer) : (specialIds t).Pairwise (· < ·) :=
  List.Pairwise.filter _ List.pairwise_lt_range

theorem sorted_special {t : Tokenizer} {id : Nat} :
    id ∈ sortSpecials t (specialIds t) ↔ id ∈ specialIds t :=
  (insertion_sort_perm (specialIds t)).mem_iff

/-- A token in another group does not stand here. -/
theorem special_at_whole (t : Tokenizer) (rest : Bytes) :
    specialAt t (specials t) rest = wholeScan t rest := by
  cases rest with
  | nil =>
      symm
      apply List.find?_eq_none.mpr
      intro id inside stands
      have some_ := special_token_some (sorted_special.mp inside)
      exact some_ (List.prefix_nil.mp (List.isPrefixOf_iff_prefix.mp stands))
  | cons b rest =>
      have small : ∀ id ∈ sortSpecials t (specialIds t), firstByte t id < 256 :=
        fun id _ => UInt8.toNat_lt _
      rw [specialAt, specials, bucketSpecials, counting_sort_group _ small (UInt8.toNat_lt b),
        wholeScan]
      apply find_group
      intro id inside stands
      have front : tokenAt t id <+: b :: rest := List.isPrefixOf_iff_prefix.mp stands
      have some_ := special_token_some (sorted_special.mp inside)
      cases token : tokenAt t id with
      | nil => exact absurd token some_
      | cons c s =>
          rw [token] at front
          rw [firstByte, token, (List.cons_prefix_cons.mp front).1]
          exact beq_self_eq_true _

theorem special_at_longest {t : Tokenizer} {rest : Bytes} {id : Nat}
    (found : specialAt t (specials t) rest = some id) : Longest t rest id := by
  rw [special_at_whole] at found
  have order : (sortSpecials t (specialIds t)).Pairwise
      (Ahead (fun id => (tokenAt t id).length) (· < ·)) :=
    insertion_sort_ahead (special_ids_order t)
  have ahead := find_ahead order found
  have stands := List.find?_some found
  have compare (other : Nat) (here : Matches t rest other) :
      other = id ∨ Ahead (fun id => (tokenAt t id).length) (· < ·) id other :=
    ahead other (sorted_special.mpr here.1) (List.isPrefixOf_iff_prefix.mpr here.2)
  constructor
  · have inside := List.mem_of_find?_eq_some found
    exact ⟨sorted_special.mp inside, List.isPrefixOf_iff_prefix.mp stands⟩
  · intro other here
    rcases compare other here with same | longer | ⟨equal, _⟩
    · rw [same]
    · exact Nat.le_of_lt longer
    · exact Nat.le_of_eq equal.symm
  · intro other here equal
    rcases compare other here with same | longer | ⟨_, before⟩
    · exact Nat.le_of_eq same.symm
    · have sizes := congrArg List.length equal
      dsimp only at longer
      omega
    · exact Nat.le_of_lt before

theorem special_at_none {t : Tokenizer} {rest : Bytes}
    (absent : specialAt t (specials t) rest = none) (id : Nat) : ¬Matches t rest id := by
  rw [special_at_whole] at absent
  rintro ⟨special, front⟩
  have refused := List.find?_eq_none.mp absent id (sorted_special.mpr special)
  exact refused (List.isPrefixOf_iff_prefix.mpr front)

end GridcoreRunner.Tok
