import GridcoreRunner.Tokenizer.Candidates

/-!
# The queue merges what the rescan merges

Each family's scan finds the next pair of the chain for the key its queue uses: the
highest score above the floor, or the lowest rank. Ranks stay below the numbers of
24 bits, which a float holds exactly.
-/

namespace GridcoreRunner.Tok

set_option autoImplicit false

open GreedyMerge

/-! ## The scans -/

/-- A scan keeps, beside the left symbol, what the key was computed from. -/
def Agrees {σ : Type} (start : σ) (read : σ → Option Real32)
    (best : Option (Real32 × Nat)) (seen : σ × Option Nat) : Prop :=
  (best = none ∧ seen = (start, none)) ∨
    ∃ k i, best = some (k, i) ∧ read seen.1 = some k ∧ seen.2 = some i

theorem picks_of_agrees {σ : Type} {key : Span → Span → Option Real32} {start : σ}
    {read : σ → Option Real32} {visit : Syms → σ × Option Nat → Nat → Nat → σ × Option Nat}
    (step : ∀ sym best seen a b, Agrees start read best seen →
      Agrees start read (consider (keyAt key sym) best a b) (visit sym seen a b)) (n : Nat) :
    Picks key (fun sym => (walk (visit sym) sym n 0 (start, none)).2) n := by
  intro sym xs chain short
  have first := chain.first
  have links := chain.links
  have walked : walk (visit sym) sym n 0 (start, none) =
      (pairs xs).foldl (fun seen p => visit sym seen p.1 p.2) (start, none) := by
    cases xs with
    | nil => cases first
    | cons i rest =>
        injection first with zero
        subst zero
        have shorter : rest.length ≤ n := by
          simp only [List.length_cons] at short
          omega
        exact walk_pairs (visit sym) links shorter _
  have agrees : Agrees start read
      ((pairs xs).foldl (fun best p => consider (keyAt key sym) best p.1 p.2) none)
      ((pairs xs).foldl (fun seen p => visit sym seen p.1 p.2) (start, none)) := by
    apply List.foldl_rel
    · exact Or.inl ⟨rfl, rfl⟩
    · intro p _ best seen before
      exact step sym best seen p.1 p.2 before
  simp only [walked]
  rcases scan_finds (keyAt key sym) xs with ⟨nothing, stuck⟩ | ⟨front, l, r, back, k, split, found, best⟩
  · left
    rcases agrees with ⟨_, seen⟩ | ⟨k, i, some_, _, _⟩
    · exact ⟨by rw [seen], stuck⟩
    · rw [nothing] at some_
      cases some_
  · right
    refine ⟨front, l, r, back, k, split, ?_, best⟩
    rcases agrees with ⟨none_, _⟩ | ⟨k', i, some_, _, seen⟩
    · rw [found] at none_
      cases none_
    · rw [found] at some_
      cases some_
      exact seen

/-- The key of a score above the floor. -/
def floorKey (v : Float32) : Option Real32 := if gt v spmScoreFloor then v.map Real32.neg else none

theorem spm_picks (t : Tokenizer) (scores : List Float32) (text : Bytes) (n : Nat) :
    Picks (spmKey t scores text) (spmPick t scores text n) n := by
  apply @picks_of_agrees _ _ _ floorKey
  intro sym best seen a b agrees
  simp only [consider, keyAt, spmKey, spmVisit]
  rcases joined : spmJoined t text (sym a).span (sym b).span with _ | id
  · simpa [joined] using agrees
  · simp only [Option.bind_some]
    rcases at_id : score scores id with _ | w
    · have unordered : ∀ v, gt none v = false := fun v => rfl
      simpa [unordered] using agrees
    · by_cases above : gt (some w) spmScoreFloor = true
      · rw [if_pos above]
        simp only [Option.map_some]
        rcases agrees with ⟨none_, seen_none⟩ | ⟨k, i, some_, read, picked⟩
        · rw [none_, seen_none]
          simp only
          rw [if_pos above]
          exact Or.inr ⟨w.neg, a, rfl, by simp [floorKey, above], rfl⟩
        · rcases seen with ⟨v, at_⟩
          simp only [floorKey] at read picked
          split_ifs at read with v_above
          rcases v with _ | v
          · cases read
          · simp only [Option.map_some, Option.some.injEq] at read
            subst read
            rw [some_]
            simp only [gt, neg_lt_neg, decide_eq_true_eq]
            split_ifs with better
            · exact Or.inr ⟨w.neg, a, rfl, by simp [floorKey, above], rfl⟩
            · exact Or.inr ⟨v.neg, i, rfl, by simp [floorKey, v_above], picked⟩
      · rw [if_neg above]
        have not_better : gt (some w) seen.1 = false := by
          rcases agrees with ⟨_, seen_none⟩ | ⟨k, i, _, read, _⟩
          · rw [seen_none]
            simpa using above
          · simp only [floorKey] at read
            split_ifs at read with v_above
            rcases v : seen.1 with _ | v'
            · rfl
            · rw [v] at v_above
              simp only [gt, spmScoreFloor, decide_eq_true_eq, decide_eq_false_iff_not] at *
              intro higher
              exact above (lt_trans v_above higher)
        simpa [not_better] using agrees

theorem bpe_rank_lt {t : Tokenizer} {w : Bytes} {l r : Span} {rank : Nat}
    (ranked : bpeRank t w l r = some rank) : rank < t.merges.length := by
  unfold bpeRank at ranked
  split_ifs at ranked
  exact hmap_get_lt ranked

/-- A rank as the scan compares it, below `INT_MAX`. -/
def rankKey (r : Nat) : Option Real32 := if r < intMax then some (.finite r) else none

def exactKey (t : Tokenizer) (w : Bytes) (l r : Span) : Option Real32 :=
  (bpeRank t w l r).bind rankKey

theorem finite_lt (r s : Nat) : Real32.finite r < Real32.finite s ↔ r < s := by
  rw [real_lt]
  simp [Real32.place, Prod.Lex.toLex_lt_toLex]

theorem bpe_picks_exact (t : Tokenizer) (w : Bytes) (n : Nat) :
    Picks (exactKey t w) (bpePick t w n) n := by
  apply @picks_of_agrees _ _ _ rankKey
  intro sym best seen a b agrees
  simp only [consider, keyAt, exactKey, bpeVisit]
  rcases ranked : bpeRank t w (sym a).span (sym b).span with _ | r
  · simpa using agrees
  · simp only [Option.bind_some]
    rcases agrees with ⟨none_, seen_none⟩ | ⟨k, i, some_, read, picked⟩
    · rw [none_, seen_none]
      by_cases below : r < intMax
      · simp only [rankKey, if_pos below]
        exact Or.inr ⟨.finite r, a, rfl, by simp [rankKey, below], rfl⟩
      · simp only [rankKey, if_neg below]
        exact Or.inl ⟨rfl, rfl⟩
    · rcases seen with ⟨v, at_⟩
      simp only [rankKey] at read picked
      split_ifs at read with v_below
      simp only [Option.some.injEq] at read
      subst read
      rw [some_]
      by_cases below : r < intMax
      · simp only [rankKey, if_pos below, finite_lt]
        split_ifs with better
        · exact Or.inr ⟨.finite r, a, rfl, by simp [rankKey, below], rfl⟩
        · exact Or.inr ⟨.finite v, i, rfl, by simp [rankKey, v_below], picked⟩
      · have not_better : ¬r < v := by omega
        simp only [rankKey, if_neg below, if_neg not_better]
        exact Or.inr ⟨.finite v, i, rfl, by simp [rankKey, v_below], picked⟩

/-- A float holds the ranks of a small table exactly. -/
theorem bpe_key_exact (t : Tokenizer) (w : Bytes) (few : t.merges.length < 2 ^ 24) :
    bpeKey t w = exactKey t w := by
  funext l r
  rw [bpeKey, exactKey]
  rcases ranked : bpeRank t w l r with _ | rank
  · rfl
  · have below := bpe_rank_lt ranked
    have in_int : rank < intMax := by
      have small : intMax = 2 ^ 31 - 1 := rfl
      omega
    rw [Option.map_some, Option.bind_some, rankKey, if_pos in_int, of_rank_exact (by omega)]

theorem bpe_picks (t : Tokenizer) (w : Bytes) (n : Nat) (few : t.merges.length < 2 ^ 24) :
    Picks (bpeKey t w) (bpePick t w n) n := by
  rw [bpe_key_exact t w few]
  exact bpe_picks_exact t w n

/-! ## Both merges of a text -/

theorem cut_pos (text : Bytes) (span : Span) (inside : span ∈ cut text) : 0 < span.2 :=
  cut_loop_pos _ _ _ span inside

theorem cut_ne_nil {text : Bytes} (some_ : text ≠ []) : cut text ≠ [] := by
  cases text with
  | nil => exact absurd rfl some_
  | cons c text => simp [cut, cutLoop]

theorem rescan_text_merges {key : Span → Span → Option Real32} {pick : Syms → Option Nat}
    {text : Bytes} (picks : Picks key pick (cut text).length) (some_ : text ≠ []) (rounds : Nat)
    (enough : (cut text).length ≤ rounds + 1) :
    Merges key glue (cut text)
      (finalPieces text (rescan pick rounds (linked (cut text)))) := by
  have merges := rescan_merges picks rounds (linked_chain (cut_ne_nil some_)) (by simp)
    (by simpa using enough)
  rw [linked_spans] at merges
  exact merges

theorem queue_text_merges (key : Span → Span → Option Real32) {text : Bytes} (some_ : text ≠ []) :
    Merges key glue (cut text)
      (finalPieces text (mergeQueue key (cut text).length (linked (cut text)))) :=
  merge_queue_merges (cut_ne_nil some_) (cut_pos text)

/-- The candidate queue leaves the same pieces as the rescan, for SentencePiece and
for BPE. -/
theorem queue_eq_rescan (t : Tokenizer) (scores : List Float32) (text : Bytes)
    (few : t.merges.length < 2 ^ 24) :
    finalPieces text (spmQueue t scores text) = finalPieces text (spmRescan t scores text) ∧
      finalPieces text (bpeQueue t text) = finalPieces text (bpeRescan t text) := by
  by_cases empty : text = []
  · subst empty
    exact ⟨rfl, rfl⟩
  · constructor
    · apply merges_unique (queue_text_merges (spmKey t scores text) empty)
      apply rescan_text_merges (spm_picks t scores text _) empty
      omega
    · apply merges_unique (queue_text_merges (bpeKey t text) empty)
      apply rescan_text_merges (bpe_picks t text _ few) empty
      omega

/-- Two letters and two merges; `ab` scores above `aa`. -/
def lettersVocab : Tokenizer where
  model := .bpe
  pre := .gpt2
  tokens := [[0x61], [0x62], [0x61, 0x61], [0x61, 0x62]]
  scores := none
  ttype := []
  unkId := none
  addSpacePrefix := false
  merges := [[0x61, 0x20, 0x62], [0x61, 0x20, 0x61]]

def lettersScores : List Float32 := [none, none, some (.finite (-2)), some (.finite (-1))]

theorem letters_queue_eq_rescan :
    finalPieces [0x61, 0x61, 0x62] (spmQueue lettersVocab lettersScores [0x61, 0x61, 0x62]) =
      finalPieces [0x61, 0x61, 0x62] (spmRescan lettersVocab lettersScores [0x61, 0x61, 0x62]) ∧
    finalPieces [0x61, 0x61, 0x62] (bpeQueue lettersVocab [0x61, 0x61, 0x62]) =
      finalPieces [0x61, 0x61, 0x62] (bpeRescan lettersVocab [0x61, 0x61, 0x62]) :=
  queue_eq_rescan lettersVocab lettersScores [0x61, 0x61, 0x62] (by decide)

example : finalPieces [0x61, 0x61, 0x62] (bpeQueue lettersVocab [0x61, 0x61, 0x62]) =
    [(0, 1), (1, 2)] := by decide +kernel

end GridcoreRunner.Tok
