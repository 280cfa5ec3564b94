import Mathlib.Data.List.Basic
import Mathlib.Data.List.Induction
import Mathlib.Logic.Function.Basic
import Mathlib.Tactic.Common

/-!
# Causal sequence models and their row caches

A causal model computes the cache row of a position from the rows below it, from
the recurrent fold over the positions before it, and from the token fed there.
Nothing else is assumed: `Row`, `Fold` and `Logits` are arbitrary types, so an
equation between rows proved here holds for every set of weights. The cold run
of a token list is the reference every cache is compared with.
-/

namespace GridcoreRunner.Causal

set_option autoImplicit false

/-- The weights of a causal model. A model without recurrent layers reads the
initial fold at every position, so its rows depend on the rows below alone. -/
structure Weights (Tok Row Fold Logits : Type*) where
  recurrent : Bool
  fold0 : Fold
  row : List Row → Fold → Tok → Row
  fold : List Row → Fold → Tok → Fold
  head : List Row → Fold → Tok → Logits

variable {Tok Row Fold Logits : Type*}

/-- Rows and fold left by feeding a token list from the empty sequence. -/
def cold (w : Weights Tok Row Fold Logits) (tokens : List Tok) : List Row × Fold :=
  tokens.foldl (fun state token =>
    (state.1 ++ [w.row state.1 state.2 token],
      if w.recurrent then w.fold state.1 state.2 token else w.fold0)) ([], w.fold0)

def coldRows (w : Weights Tok Row Fold Logits) (tokens : List Tok) : List Row :=
  (cold w tokens).1

def coldFold (w : Weights Tok Row Fold Logits) (tokens : List Tok) : Fold :=
  (cold w tokens).2

/-- Logits after `token` fed behind `tokens`. -/
def coldHead (w : Weights Tok Row Fold Logits) (tokens : List Tok) (token : Tok) : Logits :=
  w.head (coldRows w tokens) (coldFold w tokens) token

/-- The row of `token` fed behind `tokens`. -/
def coldRow (w : Weights Tok Row Fold Logits) (tokens : List Tok) (token : Tok) : Row :=
  w.row (coldRows w tokens) (coldFold w tokens) token

@[simp] theorem cold_rows_nil (w : Weights Tok Row Fold Logits) : coldRows w [] = [] := rfl

@[simp] theorem cold_fold_nil (w : Weights Tok Row Fold Logits) : coldFold w [] = w.fold0 := rfl

theorem cold_rows_snoc (w : Weights Tok Row Fold Logits) (tokens : List Tok) (token : Tok) :
    coldRows w (tokens ++ [token]) =
      coldRows w tokens ++ [coldRow w tokens token] := by
  simp [coldRow, coldRows, coldFold, cold, List.foldl_append]

theorem cold_fold_snoc (w : Weights Tok Row Fold Logits) (tokens : List Tok) (token : Tok) :
    coldFold w (tokens ++ [token]) =
      if w.recurrent then w.fold (coldRows w tokens) (coldFold w tokens) token else w.fold0 := by
  simp [coldRows, coldFold, cold, List.foldl_append]

theorem cold_fold_of_not_recurrent (w : Weights Tok Row Fold Logits)
    (plain : w.recurrent = false) (tokens : List Tok) : coldFold w tokens = w.fold0 := by
  induction tokens using List.reverseRecOn with
  | nil => rfl
  | append_singleton tokens token _ => simp [cold_fold_snoc, plain]

@[simp] theorem cold_rows_length (w : Weights Tok Row Fold Logits) (tokens : List Tok) :
    (coldRows w tokens).length = tokens.length := by
  induction tokens using List.reverseRecOn with
  | nil => rfl
  | append_singleton tokens token induction => simp [cold_rows_snoc, induction]

/-- Causality: the rows of a prefix are a prefix of the rows. -/
theorem cold_rows_append (w : Weights Tok Row Fold Logits) (front back : List Tok) :
    coldRows w front = (coldRows w (front ++ back)).take front.length := by
  induction back using List.reverseRecOn with
  | nil => simp [List.take_of_length_le]
  | append_singleton back token induction =>
      have bound : front.length ≤ (coldRows w (front ++ back)).length := by simp
      rw [← List.append_assoc, cold_rows_snoc, List.take_append_of_le_length bound]
      exact induction

theorem cold_rows_take (w : Weights Tok Row Fold Logits) (tokens : List Tok) (count : Nat) :
    coldRows w (tokens.take count) = (coldRows w tokens).take count := by
  by_cases short : count ≤ tokens.length
  · have split := cold_rows_append w (tokens.take count) (tokens.drop count)
    rw [List.take_append_drop, List.length_take_of_le short] at split
    exact split
  · have long : tokens.length ≤ count := by omega
    rw [List.take_of_length_le long, List.take_of_length_le (by simpa using long)]

/-! ## Arrays read as prefixes -/

/-- The first `count` cells of an array. -/
def cells {Value : Type*} (array : Nat → Value) (count : Nat) : List Value :=
  (List.range count).map array

section Cells
variable {Value : Type*}

@[simp] theorem cells_zero (array : Nat → Value) : cells array 0 = [] := rfl

@[simp] theorem cells_length (array : Nat → Value) (count : Nat) :
    (cells array count).length = count := by simp [cells]

theorem cells_succ (array : Nat → Value) (count : Nat) :
    cells array (count + 1) = cells array count ++ [array count] := by
  simp [cells, List.range_succ]

theorem cells_congr {left right : Nat → Value} {count : Nat}
    (same : ∀ index, index < count → left index = right index) :
    cells left count = cells right count := by
  apply List.map_congr_left
  intro index member
  exact same index (List.mem_range.mp member)

theorem cells_take (array : Nat → Value) (count shorter : Nat) (le : shorter ≤ count) :
    (cells array count).take shorter = cells array shorter := by
  rw [cells, ← List.map_take, List.take_range, Nat.min_eq_left le, cells]

theorem cells_get (array : Nat → Value) (count index : Nat) (bound : index < count) :
    (cells array count)[index]? = some (array index) := by
  simp [cells, bound]

/-- Write a block of cells from `start`. -/
def blit (array : Nat → Value) (start : Nat) (block : List Value) : Nat → Value :=
  fun index => if start ≤ index then (block[index - start]?).getD (array index) else array index

theorem blit_below (array : Nat → Value) (start : Nat) (block : List Value) (index : Nat)
    (below : index < start) : blit array start block index = array index := by
  simp [blit, Nat.not_le.mpr below]

theorem blit_inside (array : Nat → Value) (start : Nat) (block : List Value) (offset : Nat)
    (bound : offset < block.length) :
    blit array start block (start + offset) = block[offset] := by
  simp [blit, bound]

theorem cells_blit (array : Nat → Value) (start : Nat) (block : List Value) :
    cells (blit array start block) (start + block.length) = cells array start ++ block := by
  apply List.ext_getElem (by simp)
  intro index left right
  simp only [cells, List.length_map, List.length_range] at left
  by_cases below : index < start
  · rw [List.getElem_append_left (by simpa using below)]
    simp [cells, blit_below _ _ _ _ below]
  · obtain ⟨offset, rfl⟩ : ∃ offset, index = start + offset := ⟨index - start, by omega⟩
    rw [List.getElem_append_right (by simp)]
    simp [cells, blit_inside _ _ _ _ (show offset < block.length by omega)]

theorem cells_blit_zero (array : Nat → Value) (block : List Value) :
    cells (blit array 0 block) block.length = block := by
  simpa using cells_blit array 0 block

theorem cells_update (array : Nat → Value) (count : Nat) (value : Value) :
    cells (Function.update array count value) (count + 1) = cells array count ++ [value] := by
  rw [cells_succ, Function.update_self]
  congr 1
  exact cells_congr fun index bound => Function.update_of_ne (by omega) _ _

theorem cells_update_above (array : Nat → Value) (count index : Nat) (value : Value)
    (le : count ≤ index) : cells (Function.update array index value) count = cells array count :=
  cells_congr fun below bound => Function.update_of_ne (by omega) _ _

end Cells

/-! ## The row cache -/

/-- What a loaded model keeps between forwards: one cache row per position, the
live fold, and one fold checkpoint with the position it was taken at. -/
structure Kv (Row Fold : Type*) where
  rows : Nat → Row
  fold : Fold
  snap : Option (Nat × Fold)

/-- The fold a forward at `pos` reads: a sequence starting at position zero
resets it, and a model without recurrent layers has none. -/
def foldAt (w : Weights Tok Row Fold Logits) (kv : Kv Row Fold) (pos : Nat) : Fold :=
  if w.recurrent then if pos = 0 then w.fold0 else kv.fold else w.fold0

def forward (w : Weights Tok Row Fold Logits) (kv : Kv Row Fold) (token : Tok) (pos : Nat) :
    Kv Row Fold :=
  let below := cells kv.rows pos
  let fold := foldAt w kv pos
  { rows := Function.update kv.rows pos (w.row below fold token)
    fold := if w.recurrent then w.fold below fold token else kv.fold
    snap := if w.recurrent && pos == 0 then none else kv.snap }

/-- The logits the same forward returns. -/
def forwardHead (w : Weights Tok Row Fold Logits) (kv : Kv Row Fold) (token : Tok) (pos : Nat) :
    Logits :=
  w.head (cells kv.rows pos) (foldAt w kv pos) token

/-- Consecutive positions, first to last. -/
def forwardBatch (w : Weights Tok Row Fold Logits) :
    Kv Row Fold → List Tok → Nat → Kv Row Fold
  | kv, [], _ => kv
  | kv, token :: tokens, pos => forwardBatch w (forward w kv token pos) tokens (pos + 1)

/-- The logits row behind every token of a batch. -/
def forwardHeads (w : Weights Tok Row Fold Logits) :
    Kv Row Fold → List Tok → Nat → List Logits
  | _, [], _ => []
  | kv, token :: tokens, pos =>
      forwardHead w kv token pos :: forwardHeads w (forward w kv token pos) tokens (pos + 1)

/-- The rows below `count` are the rows a cold run of `tokens` computes. -/
def RowsOf (w : Weights Tok Row Fold Logits) (kv : Kv Row Fold) (tokens : List Tok) : Prop :=
  cells kv.rows tokens.length = coldRows w tokens

/-- The fold is the fold of `tokens`. Nothing is asked of an empty sequence,
whose first forward resets it. -/
def FoldOf (w : Weights Tok Row Fold Logits) (kv : Kv Row Fold) (tokens : List Tok) : Prop :=
  w.recurrent = true → tokens ≠ [] → kv.fold = coldFold w tokens

/-- A checkpoint, when there is one, is the fold of the tokens below its position. -/
def SnapOf (w : Weights Tok Row Fold Logits) (kv : Kv Row Fold) (tokens : List Tok) : Prop :=
  w.recurrent = true → tokens ≠ [] → ∀ position fold, kv.snap = some (position, fold) →
    position ≤ tokens.length ∧ fold = coldFold w (tokens.take position)

structure Coherent (w : Weights Tok Row Fold Logits) (kv : Kv Row Fold) (tokens : List Tok) :
    Prop where
  rows : RowsOf w kv tokens
  fold : FoldOf w kv tokens
  snap : SnapOf w kv tokens

variable {w : Weights Tok Row Fold Logits} {kv : Kv Row Fold} {tokens : List Tok}

theorem RowsOf.take (h : RowsOf w kv tokens) (count : Nat) : RowsOf w kv (tokens.take count) := by
  by_cases short : count ≤ tokens.length
  · unfold RowsOf at *
    rw [List.length_take_of_le short, cold_rows_take, ← h, cells_take _ _ _ short]
  · rwa [List.take_of_length_le (by omega)]

theorem rows_of_nil : RowsOf w kv [] := rfl

/-- Row by row: each row is the one its own prefix computes. -/
theorem rows_of_cells {hist : Nat → Tok} {count : Nat} (h : RowsOf w kv (cells hist count)) :
    ∀ index, index < count → kv.rows index = coldRow w (cells hist index) (hist index) := by
  intro index bound
  have short := h.take (index + 1)
  rw [cells_take _ _ _ (by omega)] at short
  unfold RowsOf at short
  rw [cells_length, cells_succ, cells_succ, cold_rows_snoc] at short
  have below := h.take index
  rw [cells_take _ _ _ (by omega)] at below
  unfold RowsOf at below
  rw [cells_length] at below
  rw [below] at short
  simpa using short

theorem coherent_nil : Coherent w kv [] :=
  ⟨rows_of_nil, fun _ nonempty => absurd rfl nonempty, fun _ nonempty => absurd rfl nonempty⟩

theorem fold_at_of_coherent (h : FoldOf w kv tokens) :
    foldAt w kv tokens.length = coldFold w tokens := by
  unfold foldAt
  by_cases rec : w.recurrent = true
  · rw [if_pos rec]
    by_cases empty : tokens = []
    · simp [empty]
    · rw [if_neg (by simpa using empty), h rec empty]
  · rw [if_neg rec, cold_fold_of_not_recurrent w (by simpa using rec)]

theorem forward_head_of_coherent (rows : RowsOf w kv tokens) (fold : FoldOf w kv tokens)
    (token : Tok) : forwardHead w kv token tokens.length = coldHead w tokens token := by
  unfold forwardHead coldHead
  rw [fold_at_of_coherent fold, rows]

theorem forward_rows (rows : RowsOf w kv tokens) (fold : FoldOf w kv tokens) (token : Tok) :
    RowsOf w (forward w kv token tokens.length) (tokens ++ [token]) := by
  unfold RowsOf forward
  rw [List.length_append, List.length_singleton, cells_update, cold_rows_snoc, coldRow,
    fold_at_of_coherent fold, rows]

theorem forward_fold (rows : RowsOf w kv tokens) (fold : FoldOf w kv tokens) (token : Tok) :
    FoldOf w (forward w kv token tokens.length) (tokens ++ [token]) := by
  intro rec _
  simp only [forward, rec, if_true]
  rw [cold_fold_snoc, if_pos rec, fold_at_of_coherent fold, rows]

theorem forward_snap (snap : SnapOf w kv tokens) (token : Tok) :
    SnapOf w (forward w kv token tokens.length) (tokens ++ [token]) := by
  intro rec _ position fold found
  by_cases empty : tokens = []
  · simp [forward, rec, empty] at found
  · have kept : kv.snap = some (position, fold) := by simpa [forward, rec, empty] using found
    obtain ⟨le, eq⟩ := snap rec empty position fold kept
    refine ⟨by simp; omega, ?_⟩
    rw [List.take_append_of_le_length le]
    exact eq

/-- One forward at the end of a coherent cache keeps it coherent. -/
theorem forward_coherent (h : Coherent w kv tokens) (token : Tok) :
    Coherent w (forward w kv token tokens.length) (tokens ++ [token]) :=
  ⟨forward_rows h.rows h.fold token, forward_fold h.rows h.fold token, forward_snap h.snap token⟩

theorem forward_batch_coherent (h : Coherent w kv tokens) (batch : List Tok) :
    Coherent w (forwardBatch w kv batch tokens.length) (tokens ++ batch) := by
  induction batch generalizing kv tokens with
  | nil => simpa [forwardBatch] using h
  | cons token batch induction =>
      have next := induction (forward_coherent h token)
      simpa [forwardBatch] using next

/-- The cold logits behind every token of a batch. -/
def coldHeads (w : Weights Tok Row Fold Logits) : List Tok → List Tok → List Logits
  | _, [] => []
  | front, token :: batch => coldHead w front token :: coldHeads w (front ++ [token]) batch

/-- Row logits of a batch over a coherent cache are those of the cold run. -/
theorem forward_heads_of_coherent (h : Coherent w kv tokens) (batch : List Tok) :
    forwardHeads w kv batch tokens.length = coldHeads w tokens batch := by
  induction batch generalizing kv tokens with
  | nil => rfl
  | cons token batch induction =>
      have next := induction (forward_coherent h token)
      rw [List.length_append, List.length_singleton] at next
      rw [forwardHeads, coldHeads, forward_head_of_coherent h.rows h.fold, next]

end GridcoreRunner.Causal
