import GridcoreRunner.RingBuffer
import GridcoreRunner.Sampler.Sample

/-!
# The penalty window

`sampler_accept` writes the accepted tokens round and round into a table, and `sample_pick` reads
the table from its first place on, in whatever order the tokens have come to stand there. What it
picks is what it picks from the list of the last tokens.
-/

namespace GridcoreRunner.Sampling

set_option autoImplicit false

open RingBuffer

/-- The places of `recent`. -/
def windowSize : Nat := 256

/-- The fields of `sampler` that hold the window. -/
structure Window where
  recent : Nat → Int
  nRecent : Nat
  recentHead : Nat

namespace Window

def samplerReset (w : Window) : Window := { w with nRecent := 0, recentHead := 0 }

def samplerAccept (w : Window) (tok : Int) : Window where
  recent := Function.update w.recent w.recentHead tok
  recentHead := (w.recentHead + 1) % windowSize
  nRecent := if w.nRecent < windowSize then w.nRecent + 1 else w.nRecent

/-- What `sample_pick` reads, in the order of its loop. -/
def read (w : Window) : List Int := (List.range w.nRecent).map w.recent

end Window

/-- What happens to a window. -/
inductive Window.Event
  | reset
  | accept (tok : Int)

def Window.fire (w : Window) : Window.Event → Window
  | .reset => w.samplerReset
  | .accept tok => w.samplerAccept tok

/-- The tokens accepted since the last reset. -/
def accepted (tokens : List Int) : Window.Event → List Int
  | .reset => []
  | .accept tok => tokens ++ [tok]

/-- The last tokens, `windowSize` of them at most. -/
def lastTokens (tokens : List Int) : List Int := tokens.drop (tokens.length - windowSize)

theorem last_tokens_room {tokens : List Int} (room : tokens.length < windowSize) (tok : Int) :
    lastTokens (tokens ++ [tok]) = lastTokens tokens ++ [tok] := by
  unfold lastTokens
  rw [List.length_append, List.length_singleton, Nat.sub_eq_zero_of_le room,
    Nat.sub_eq_zero_of_le (Nat.le_of_lt room), List.drop_zero, List.drop_zero]

theorem last_tokens_full {tokens : List Int} (full : windowSize ≤ tokens.length) (tok : Int) :
    lastTokens (tokens ++ [tok]) = (lastTokens tokens).tail ++ [tok] := by
  unfold lastTokens
  have next : (tokens ++ [tok]).length - windowSize = tokens.length - windowSize + 1 := by
    rw [List.length_append, List.length_singleton]
    omega
  rw [next, List.tail_drop, List.drop_append_of_le_length]
  unfold windowSize at full ⊢
  omega

/-- The window holds the last tokens, from its oldest place on. -/
structure Window.Holds (w : Window) (tokens : List Int) (oldest : Nat) : Prop where
  count : w.nRecent = min tokens.length windowSize
  inside : oldest < windowSize
  head : w.recentHead = (oldest + w.nRecent) % windowSize
  start : w.nRecent < windowSize → oldest = 0
  held : RingBuffer.held windowSize w.recent oldest w.nRecent = lastTokens tokens

theorem Window.reset_holds (w : Window) : w.samplerReset.Holds [] 0 :=
  ⟨rfl, by decide, rfl, fun _ => rfl, rfl⟩

theorem Window.Holds.accept {w : Window} {tokens : List Int} {oldest : Nat}
    (holds : w.Holds tokens oldest) (tok : Int) :
    ∃ next, (w.samplerAccept tok).Holds (tokens ++ [tok]) next := by
  have count := holds.count
  have inside := holds.inside
  by_cases room : w.nRecent < windowSize
  · have few : tokens.length < windowSize := by omega
    refine ⟨oldest, ?_, inside, ?_, fun _ => holds.start room, ?_⟩
    · unfold samplerAccept
      rw [if_pos room, List.length_append, List.length_singleton]
      dsimp only
      omega
    · unfold samplerAccept
      rw [if_pos room, holds.head]
      exact next_tail oldest w.nRecent
    · unfold samplerAccept
      rw [if_pos room, holds.head, held_push room, holds.held, last_tokens_room few]
  · have full : w.nRecent = windowSize := by omega
    have many : windowSize ≤ tokens.length := by omega
    have head : w.recentHead = oldest := by
      rw [holds.head, full, Nat.add_mod_right, Nat.mod_eq_of_lt inside]
    have held := holds.held
    rw [full] at held
    refine ⟨(oldest + 1) % windowSize, ?_, Nat.mod_lt _ (by decide), ?_, ?_, ?_⟩
    · unfold samplerAccept
      rw [if_neg room, List.length_append, List.length_singleton]
      dsimp only
      omega
    · unfold samplerAccept
      rw [if_neg room, full, head, Nat.add_mod_right, Nat.mod_mod]
    · unfold samplerAccept
      rw [if_neg room]
      intro more
      exact absurd more room
    · unfold samplerAccept
      rw [if_neg room, full, head, last_tokens_full many, ← held]
      exact held_overwrite (rfl : 255 + 1 = windowSize) inside w.recent tok

theorem Window.Holds.fires {w : Window} {tokens : List Int} {oldest : Nat}
    (holds : w.Holds tokens oldest) (events : List Window.Event) :
    ∃ next, (events.foldl Window.fire w).Holds (events.foldl accepted tokens) next := by
  induction events generalizing w tokens oldest with
  | nil => exact ⟨oldest, holds⟩
  | cons event events induction =>
      cases event with
      | reset => exact induction w.reset_holds
      | accept tok =>
          obtain ⟨next, later⟩ := holds.accept tok
          exact induction later

theorem Window.Holds.read {w : Window} {tokens : List Int} {oldest : Nat}
    (holds : w.Holds tokens oldest) : w.read.Perm (lastTokens tokens) := by
  have held := holds.held
  unfold Window.read
  by_cases room : w.nRecent < windowSize
  · rw [holds.start room] at held
    rw [← held]
    unfold RingBuffer.held
    apply List.Perm.of_eq
    apply List.map_congr_left
    intro k below
    rw [Nat.zero_add, Nat.mod_eq_of_lt (Nat.lt_trans (List.mem_range.mp below) room)]
  · have count := holds.count
    have full : w.nRecent = windowSize := by omega
    rw [full] at held ⊢
    rw [← held]
    exact (held_full holds.inside w.recent).symm

/-! ## The order of the window does not matter -/

variable {K : Type*} [Field K] [LinearOrder K]

/-- `s` with another window. -/
def Sampler.seeing (s : Sampler K) (recent : List Int) : Sampler K := { s with recent := recent }

/-- One token of the window. -/
def penaliseOne (s : Sampler K) (logits : List K) (tok : Int) : List K :=
  if tok < 0 ∨ tok ≥ (logits.length : Int) then logits
  else if tok ∈ s.noPenalty then logits
  else logits.modify tok.toNat fun l => if l > 0 then l / s.repeatPenalty else l * s.repeatPenalty

theorem penalise_one_length (s : Sampler K) (logits : List K) (tok : Int) :
    (penaliseOne s logits tok).length = logits.length := by
  unfold penaliseOne
  split_ifs
  · rfl
  · rfl
  · exact List.length_modify _ _ _

theorem penalise_one_comm (s : Sampler K) (logits : List K) (first second : Int) :
    penaliseOne s (penaliseOne s logits first) second =
      penaliseOne s (penaliseOne s logits second) first := by
  by_cases same : first = second
  · rw [same]
  have firstLength := penalise_one_length s logits first
  have secondLength := penalise_one_length s logits second
  unfold penaliseOne at firstLength secondLength ⊢
  rw [firstLength, secondLength]
  split_ifs with outside other exempt exempt'
  all_goals try rfl
  apply List.modify_modify_ne
  omega

theorem penalise_perm {recent recent' : List Int} (same : recent.Perm recent') (s : Sampler K)
    (logits : List K) : penalise (s.seeing recent) logits = penalise (s.seeing recent') logits := by
  unfold penalise
  by_cases on : s.temp > 0 ∧ s.repeatPenalty ≠ 1
  · have folded := same.foldl_eq' (fun first _ second _ logits =>
      penalise_one_comm s logits first second) logits
    exact (if_pos on).trans (folded.trans (if_pos on).symm)
  · exact (if_neg on).trans (if_neg on).symm

theorem head_from_seeing (x : ExpLog K) (s : Sampler K) (recent : List Int) (c : List (Cand K))
    (wantK : Nat) (rPre : K) (rng : UInt64) (loosen : Nat) (tLog : K) :
    headFrom x (s.seeing recent) c wantK rPre rng loosen tLog =
      headFrom x s c wantK rPre rng loosen tLog := by
  induction loosen generalizing tLog with
  | zero => rfl
  | succ loosen induction =>
      unfold headFrom
      rw [induction]
      rfl

theorem sample_pick_seeing {recent recent' : List Int} (same : recent.Perm recent') (x : ExpLog K)
    (s : Sampler K) (logits : List K) (ok : Option (Nat → Bool)) :
    samplePick x (s.seeing recent) logits ok = samplePick x (s.seeing recent') logits ok := by
  unfold samplePick
  rw [penalise_perm same]
  simp only [head_from_seeing]
  rfl

/-- Whatever was accepted, and however often the sampler was reset, a pick with the table is the
pick with the list of the last tokens that were accepted since the last reset, each of them as
often as it is there. -/
theorem window_is_the_last_tokens (w : Window) (events : List Window.Event) (x : ExpLog K)
    (s : Sampler K) (logits : List K) (ok : Option (Nat → Bool)) :
    (events.foldl Window.fire w.samplerReset).read.Perm (lastTokens (events.foldl accepted [])) ∧
      samplePick x (s.seeing (events.foldl Window.fire w.samplerReset).read) logits ok =
        samplePick x (s.seeing (lastTokens (events.foldl accepted []))) logits ok := by
  obtain ⟨oldest, holds⟩ := w.reset_holds.fires events
  exact ⟨holds.read, sample_pick_seeing holds.read x s logits ok⟩

end GridcoreRunner.Sampling
