import GridcoreRunner.Tokenizer.MergeQueue
import GridcoreRunner.Tokenizer.Encode

/-!
# What merging leaves

The pieces in front of the output loops are the symbols of the text, joined in
their order: nothing is lost between them, whatever the tables say.
-/

namespace GridcoreRunner.Tok

set_option autoImplicit false

open GreedyMerge

/-! ## Contiguous spans -/

/-- The spans cover the bytes from `i` to `n`, one after the other. -/
def Tiles (n : Nat) : Nat → List Span → Prop
  | i, [] => i = n
  | i, span :: spans => span.1 = i ∧ Tiles n (i + span.2) spans

theorem tiles_append (n i : Nat) (front rest : List Span) :
    Tiles n i (front ++ rest) ↔ ∃ j, Tiles j i front ∧ Tiles n j rest := by
  induction front generalizing i with
  | nil => simp [Tiles]
  | cons span front ih =>
      simp only [List.cons_append, Tiles, ih]
      constructor
      · rintro ⟨here, j, before, after⟩
        exact ⟨j, ⟨here, before⟩, after⟩
      · rintro ⟨j, ⟨here, before⟩, after⟩
        exact ⟨here, j, before, after⟩

theorem cut_loop_tiles (rounds i : Nat) (s : Bytes) (enough : s.length ≤ rounds) :
    Tiles (i + s.length) i (cutLoop rounds i s) := by
  induction rounds generalizing i s with
  | zero =>
      have empty : s = [] := List.length_eq_zero_iff.mp (Nat.le_zero.mp enough)
      subst empty
      rfl
  | succ rounds ih =>
      cases s with
      | nil => rfl
      | cons c s =>
          simp only [cutLoop]
          have positive := u8_len_pos c
          have inside : 0 < (if s.length + 1 < u8Len c then 1 else u8Len c) ∧
              (if s.length + 1 < u8Len c then 1 else u8Len c) ≤ s.length + 1 := by
            split_ifs <;> omega
          refine ⟨rfl, ?_⟩
          have rest := ih (i + if s.length + 1 < u8Len c then 1 else u8Len c)
            ((c :: s).drop (if s.length + 1 < u8Len c then 1 else u8Len c)) (by
              rw [List.length_drop]
              simp only [List.length_cons] at enough ⊢
              omega)
          have length_ : (i + if s.length + 1 < u8Len c then 1 else u8Len c) +
              ((c :: s).drop (if s.length + 1 < u8Len c then 1 else u8Len c)).length =
                i + (c :: s).length := by
            rw [List.length_drop, List.length_cons]
            omega
          rwa [length_] at rest

theorem cut_tiles (text : Bytes) : Tiles text.length 0 (cut text) := by
  have tiles := cut_loop_tiles text.length 0 text (Nat.le_refl _)
  rwa [Nat.zero_add] at tiles

theorem tiles_le {n i : Nat} {spans : List Span} (tiles : Tiles n i spans) : i ≤ n := by
  induction spans generalizing i with
  | nil => exact Nat.le_of_eq tiles
  | cons span spans ih =>
      have later := ih tiles.2
      omega

/-- The text of contiguous spans. -/
theorem tiles_text {text : Bytes} {n i : Nat} {spans : List Span} (tiles : Tiles n i spans) :
    (spans.map (slice text)).flatten = slice text (i, n - i) := by
  induction spans generalizing i with
  | nil =>
      have same : i = n := tiles
      simp [slice, same]
  | cons span spans ih =>
      rcases tiles with ⟨here, later⟩
      have le := tiles_le later
      rw [List.map_cons, List.flatten_cons, ih later, slice, slice, slice, here, ← List.drop_drop]
      have count : n - i = span.2 + (n - (i + span.2)) := by omega
      simp only [count, List.take_add]

theorem slice_glue (text : Bytes) {l r : Span} (next : r.1 = l.1 + l.2) :
    slice text (glue l r) = slice text l ++ slice text r := by
  rw [slice, slice, slice, glue, next, List.take_add, List.drop_drop]

/-! ## The characters of a text -/

/-- The length of the first symbol. -/
def clamp (c : UInt8) (s : Bytes) : Nat := if s.length + 1 < u8Len c then 1 else u8Len c

theorem clamp_bounds (c : UInt8) (s : Bytes) : 0 < clamp c s ∧ clamp c s ≤ (c :: s).length := by
  have positive := u8_len_pos c
  rw [clamp, List.length_cons]
  split_ifs <;> omega

theorem cut_loop_rounds (rounds more i : Nat) (s : Bytes) (enough : s.length ≤ rounds)
    (enough' : s.length ≤ more) : cutLoop rounds i s = cutLoop more i s := by
  induction rounds generalizing more i s with
  | zero =>
      have empty : s = [] := List.length_eq_zero_iff.mp (Nat.le_zero.mp enough)
      subst empty
      cases more <;> rfl
  | succ rounds ih =>
      rcases s with _ | ⟨c, s⟩
      · cases more <;> rfl
      rcases more with _ | more
      · simp at enough'
      have shorter : ((c :: s).drop (clamp c s)).length ≤ s.length := by
        have positive := clamp_bounds c s
        rw [List.length_drop, List.length_cons]
        omega
      simp only [List.length_cons] at enough enough'
      change (i, clamp c s) :: cutLoop rounds (i + clamp c s) ((c :: s).drop (clamp c s)) =
        (i, clamp c s) :: cutLoop more (i + clamp c s) ((c :: s).drop (clamp c s))
      rw [ih more _ _ (by omega) (by omega)]

theorem cut_loop_shift (rounds i : Nat) (text s : Bytes) :
    (cutLoop rounds i s).map (slice text) = (cutLoop rounds 0 s).map (slice (text.drop i)) := by
  induction rounds generalizing i text s with
  | zero => rfl
  | succ rounds ih =>
      rcases s with _ | ⟨c, s⟩
      · rfl
      change slice text (i, clamp c s) :: (cutLoop rounds (i + clamp c s) _).map (slice text) =
        slice (text.drop i) (0, clamp c s) :: (cutLoop rounds (0 + clamp c s) _).map _
      rw [ih (i + clamp c s), ih (0 + clamp c s), List.drop_drop, Nat.zero_add]
      rfl

theorem characters_cons (c : UInt8) (s : Bytes) :
    characters (c :: s) =
      (c :: s).take (clamp c s) :: characters ((c :: s).drop (clamp c s)) := by
  have shorter : ((c :: s).drop (clamp c s)).length ≤ s.length := by
    have positive := clamp_bounds c s
    rw [List.length_drop, List.length_cons]
    omega
  rw [characters, cut, List.length_cons]
  change slice (c :: s) (0, clamp c s) ::
    (cutLoop s.length (0 + clamp c s) ((c :: s).drop (clamp c s))).map (slice (c :: s)) = _
  rw [cut_loop_shift, Nat.zero_add, cut_loop_rounds _ _ _ _ shorter (Nat.le_refl _)]
  rfl

theorem characters_flatten (text : Bytes) : (characters text).flatten = text := by
  rw [characters, tiles_text (cut_tiles text), slice]
  simp

/-! ## Groups of symbols -/

/-- The spans are the symbols of the text in groups; a group of several is one that a
merge made. -/
structure Groups (text : Bytes) (made : Bytes → Prop) (spans : List Span) : Prop where
  tiles : Tiles text.length 0 spans
  groups : ∃ groups : List (List Bytes), groups.flatten = characters text ∧
    spans.map (slice text) = groups.map List.flatten ∧
    ∀ group ∈ groups, group ≠ [] ∧ (group.length = 1 ∨ made group.flatten)

theorem cut_groups (text : Bytes) (made : Bytes → Prop) : Groups text made (cut text) := by
  constructor
  · exact cut_tiles text
  · refine ⟨(characters text).map fun c => [c], ?_, ?_, ?_⟩
    · induction characters text with
      | nil => rfl
      | cons c s ih => rw [List.map_cons, List.flatten_cons, ih, List.singleton_append]
    · rw [List.map_map]
      simp [characters, Function.comp_def]
    · intro group inside
      simp only [List.mem_map] at inside
      rcases inside with ⟨c, _, same⟩
      subst same
      exact ⟨List.cons_ne_nil c [], Or.inl rfl⟩

theorem glue_groups {text : Bytes} {made : Bytes → Prop} {front back : List Span} {l r : Span}
    (makes : made (slice text (glue l r))) (whole : Groups text made (front ++ l :: r :: back)) :
    Groups text made (front ++ glue l r :: back) := by
  rcases (tiles_append _ _ _ _).mp whole.tiles with ⟨j, before, left, right, after⟩
  have next : r.1 = l.1 + l.2 := by rw [left, right]
  constructor
  · apply (tiles_append _ _ _ _).mpr
    refine ⟨j, before, left, ?_⟩
    have end_ : j + (glue l r).2 = j + l.2 + r.2 := (Nat.add_assoc j l.2 r.2).symm
    rw [end_]
    exact after
  · rcases whole.groups with ⟨groups, symbols, texts, each⟩
    rw [List.map_append, List.map_cons, List.map_cons] at texts
    rcases List.map_eq_append_iff.mp texts.symm with ⟨front', rest, split, fronts, rests⟩
    rcases List.map_eq_cons_iff.mp rests with ⟨left', rest', split', lefts, rests'⟩
    rcases List.map_eq_cons_iff.mp rests' with ⟨right', back', split'', rights, backs⟩
    subst split split' split''
    have joined : slice text (glue l r) = (left' ++ right').flatten := by
      rw [slice_glue text next, List.flatten_append, lefts, rights]
    refine ⟨front' ++ (left' ++ right') :: back', ?_, ?_, ?_⟩
    · rw [← symbols]
      simp
    · rw [List.map_append, List.map_cons, List.map_append, List.map_cons, joined, fronts, backs]
    · intro group inside
      rw [List.mem_append, List.mem_cons] at inside
      rcases inside with before_ | here | after_
      · exact each group (by simp [before_])
      · rw [here, ← joined]
        refine ⟨?_, Or.inr makes⟩
        have some_ := (each left' (by simp)).1
        simp [some_]
      · exact each group (by simp [after_])

theorem merges_groups {key : Span → Span → Option Real32} {text : Bytes} {made : Bytes → Prop}
    {spans : List Span} (merges : Merges key glue (cut text) spans)
    (makes : ∀ l r k, key l r = some k → made (slice text (glue l r))) : Groups text made spans := by
  apply merges_preserve merges (cut_groups text made)
  intro front l r back k keyed whole
  exact glue_groups (makes l r k keyed) whole

/-! ## Both families -/

theorem linked_pieces {text : Bytes} (some_ : text ≠ []) :
    finalPieces text (linked (cut text)) = cut text := by
  have chain := linked_chain (cut_ne_nil some_)
  have spans := @pieces_chain _ _ _ chain.links (cut text).length (by simp)
  rw [chain.first, linked_spans] at spans
  exact spans

/-- SentencePiece joins symbols to pieces of the vocabulary only. -/
theorem spm_groups (t : Tokenizer) (force : Option Bool) {text : Bytes} (some_ : text ≠ []) :
    Groups text (fun piece => (hmapGet t.tokens piece).isSome)
      (finalPieces text (spmMerged t force text)) := by
  rw [spmMerged]
  rcases t.scores with _ | scores
  · simp only
    rw [linked_pieces some_]
    exact cut_groups text _
  · have makes : ∀ l r k, spmKey t scores text l r = some k →
        (hmapGet t.tokens (slice text (glue l r))).isSome = true := by
      intro l r k keyed
      rw [spmKey, Option.bind_eq_some_iff] at keyed
      rcases keyed with ⟨id, found, _⟩
      rw [spmJoined] at found
      rw [glue, found]
      rfl
    simp only
    split_ifs
    · exact merges_groups (queue_text_merges _ some_) makes
    · apply merges_groups (rescan_text_merges (spm_picks t scores text _) some_ _ (by omega)) makes

theorem bpe_groups (t : Tokenizer) (force : Option Bool) {w : Bytes} (some_ : w ≠ []) :
    Groups w (fun _ => True) (finalPieces w (bpeMerged t force w)) := by
  rw [bpeMerged]
  split_ifs
  · exact merges_groups (queue_text_merges _ some_) fun _ _ _ _ => trivial
  · exact merges_groups (rescan_text_merges (bpe_picks_exact t w _) some_ _ (by omega))
      fun _ _ _ _ => trivial

end GridcoreRunner.Tok
