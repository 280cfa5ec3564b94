import Mathlib.Data.List.Basic
import Mathlib.Data.List.TakeDrop
import Mathlib.Tactic.Common

/-!
# Backtracking regular expressions

Regular expressions over any alphabet whose repetitions are of single characters,
with the semantics of a backtracking matcher: all rests a match can leave, in the
order they are tried. The first of them is the leftmost-first match. A text is
split into its matches from left to right; what lies between two matches is a
piece of its own.
-/

namespace Regex

set_option autoImplicit false

variable {α : Type}

inductive Re (α : Type)
  | eps
  | cls (p : α → Bool)
  | rep (p : α → Bool) (least : Nat) (most : Option Nat)
  | seq (a b : Re α)
  | alt (a b : Re α)
  | notAhead (p : α → Bool)

/-- At most one character, greedily. -/
def Re.opt (p : α → Bool) : Re α := .rep p 0 (some 1)

/-- A greedy repetition goes on before it stops. -/
def repRun (p : α → Bool) : Nat → Option Nat → List α → List (List α)
  | least, _, [] => if least = 0 then [[]] else []
  | least, most, c :: s =>
      (if p c ∧ most ≠ some 0 then repRun p (least - 1) (most.map (· - 1)) s else []) ++
        if least = 0 then [c :: s] else []

/-- The rests of all matches, in the order a backtracking matcher finds them. -/
def Re.run : Re α → List α → List (List α)
  | .eps, s => [s]
  | .cls _, [] => []
  | .cls p, c :: s => if p c then [s] else []
  | .rep p least most, s => repRun p least most s
  | .seq a b, s => (a.run s).flatMap b.run
  | .alt a b, s => a.run s ++ b.run s
  | .notAhead p, s => if s.head?.any p then [] else [s]

@[simp] theorem rep_run_nil (p : α → Bool) (least : Nat) (most : Option Nat) :
    repRun p least most [] = if least = 0 then [[]] else [] := rfl

@[simp] theorem rep_run_cons (p : α → Bool) (least : Nat) (most : Option Nat) (c : α)
    (s : List α) :
    repRun p least most (c :: s) =
      (if p c ∧ most ≠ some 0 then repRun p (least - 1) (most.map (· - 1)) s else []) ++
        if least = 0 then [c :: s] else [] := rfl

@[simp] theorem run_eps (s : List α) : (Re.eps : Re α).run s = [s] := rfl

@[simp] theorem run_cls_nil (p : α → Bool) : (Re.cls p).run [] = [] := rfl

@[simp] theorem run_cls_cons (p : α → Bool) (c : α) (s : List α) :
    (Re.cls p).run (c :: s) = if p c then [s] else [] := rfl

@[simp] theorem run_rep (p : α → Bool) (least : Nat) (most : Option Nat) (s : List α) :
    (Re.rep p least most).run s = repRun p least most s := rfl

@[simp] theorem run_seq (a b : Re α) (s : List α) :
    (Re.seq a b).run s = (a.run s).flatMap b.run := rfl

@[simp] theorem run_alt (a b : Re α) (s : List α) : (Re.alt a b).run s = a.run s ++ b.run s := rfl

@[simp] theorem run_not_ahead (p : α → Bool) (s : List α) :
    (Re.notAhead p).run s = if s.head?.any p then [] else [s] := rfl

/-- The leftmost-first match, by what it leaves. -/
def Re.first (r : Re α) (s : List α) : Option (List α) := (r.run s).head?

/-- A stretch that no match covers, unless it is empty. -/
def gapPiece (gap : List α) : List (List α) := if gap = [] then [] else [gap]

/-- The pieces, after a gap. An empty match counts as none. Each round reads at
least one character. -/
def splitLoop (r : Re α) : Nat → List α → List α → List (List α)
  | 0, _, _ => []
  | _ + 1, gap, [] => gapPiece gap
  | rounds + 1, gap, c :: s =>
      match r.first (c :: s) with
      | none => splitLoop r rounds (gap ++ [c]) s
      | some rest =>
          if rest.length ≤ s.length then
            gapPiece gap ++ (c :: s).take (s.length + 1 - rest.length) :: splitLoop r rounds [] rest
          else splitLoop r rounds (gap ++ [c]) s

/-- The text cut into its matches. -/
def Re.split (r : Re α) (s : List α) : List (List α) := splitLoop r (s.length + 1) [] s

/-- Where the matches start. -/
def startsLoop (r : Re α) : Nat → List α → List (List α)
  | 0, _ => []
  | _ + 1, [] => []
  | rounds + 1, c :: s =>
      match r.first (c :: s) with
      | none => startsLoop r rounds s
      | some rest =>
          if rest.length ≤ s.length then (c :: s) :: startsLoop r rounds rest
          else startsLoop r rounds s

/-- The rests of the text at which a match starts. -/
def Re.starts (r : Re α) (s : List α) : List (List α) := startsLoop r (s.length + 1) s

/-! ## The first match -/

@[simp] theorem first_eps (s : List α) : (Re.eps : Re α).first s = some s := rfl

@[simp] theorem first_cls_nil (p : α → Bool) : (Re.cls p).first [] = none := rfl

@[simp] theorem first_cls_cons (p : α → Bool) (c : α) (s : List α) :
    (Re.cls p).first (c :: s) = if p c then some s else none := by
  simp only [Re.first, run_cls_cons]
  split_ifs <;> rfl

@[simp] theorem first_alt (a b : Re α) (s : List α) :
    (Re.alt a b).first s = (a.first s).or (b.first s) := by
  simp [Re.first, List.head?_append]

theorem first_not_ahead (p : α → Bool) (s : List α) :
    (Re.notAhead p).first s = if s.head?.any p then none else some s := by
  simp only [Re.first, run_not_ahead]
  split_ifs <;> rfl

/-- No backtracking into `a` when `b` always matches. -/
theorem first_seq (a b : Re α) (s : List α) (total : ∀ t, b.first t ≠ none) :
    (Re.seq a b).first s = (a.first s).bind b.first := by
  simp only [Re.first, run_seq] at total ⊢
  rcases a.run s with _ | ⟨t, ts⟩
  · rfl
  · have some_ := total t
    rcases at_t : b.run t with _ | ⟨u, us⟩
    · rw [at_t] at some_
      exact absurd rfl some_
    · simp [Re.first, at_t]

@[simp] theorem first_seq_cls_nil (p : α → Bool) (b : Re α) :
    (Re.seq (.cls p) b).first [] = none := rfl

@[simp] theorem first_seq_cls_cons (p : α → Bool) (b : Re α) (c : α) (s : List α) :
    (Re.seq (.cls p) b).first (c :: s) = if p c then b.first s else none := by
  simp only [Re.first, run_seq, run_cls_cons]
  split_ifs <;> simp

theorem first_seq_opt_nil (p : α → Bool) (b : Re α) :
    (Re.seq (.opt p) b).first [] = b.first [] := by
  simp [Re.first, Re.opt]

theorem rep_run_zero (p : α → Bool) (s : List α) : repRun p 0 (some 0) s = [s] := by
  cases s <;> simp

/-- An optional character is taken if the rest then matches. -/
theorem first_seq_opt_cons (p : α → Bool) (b : Re α) (c : α) (s : List α) :
    (Re.seq (.opt p) b).first (c :: s) =
      if p c then (b.first s).or (b.first (c :: s)) else b.first (c :: s) := by
  by_cases taken : p c = true
  · simp [Re.first, Re.opt, taken, rep_run_zero, List.head?_append]
  · simp [Re.first, Re.opt, taken]

/-- A repetition before `b` gives back one character at a time. -/
theorem first_seq_star (p : α → Bool) (b : Re α) (c : α) (s : List α) :
    (Re.seq (.rep p 0 none) b).first (c :: s) =
      if p c then ((Re.seq (.rep p 0 none) b).first s).or (b.first (c :: s))
      else b.first (c :: s) := by
  by_cases taken : p c = true
  · simp [Re.first, taken, List.head?_append]
  · simp [Re.first, taken]

theorem first_seq_star_nil (p : α → Bool) (b : Re α) :
    (Re.seq (.rep p 0 none) b).first [] = b.first [] := by
  simp [Re.first]

/-- A repetition that must take one character keeps the first. -/
theorem first_seq_plus (p : α → Bool) (b : Re α) (c : α) (s : List α) :
    (Re.seq (.rep p 1 none) b).first (c :: s) =
      if p c then (Re.seq (.rep p 0 none) b).first s else none := by
  by_cases taken : p c = true
  · simp [Re.first, taken]
  · simp [Re.first, taken]

theorem first_star (p : α → Bool) (s : List α) :
    (Re.rep p 0 none).first s = some (s.dropWhile p) := by
  induction s with
  | nil => rfl
  | cons c s ih =>
      simp only [Re.first, run_rep] at ih
      by_cases taken : p c = true
      · simp [Re.first, taken, List.head?_append, ih]
      · simp [Re.first, taken]

theorem first_plus (p : α → Bool) (c : α) (s : List α) :
    (Re.rep p 1 none).first (c :: s) = if p c then some (s.dropWhile p) else none := by
  by_cases taken : p c = true
  · have star := first_star p s
    simp only [Re.first, run_rep] at star
    simp [Re.first, taken, star]
  · simp [Re.first, taken]

/-- A bounded repetition takes as many characters as it may. -/
theorem rep_run_bounded (p : α → Bool) (least most : Nat) (s : List α) :
    (repRun p least (some most) s).head? =
      if least ≤ min most (s.takeWhile p).length then some (s.drop (min most (s.takeWhile p).length))
      else none := by
  induction s generalizing least most with
  | nil =>
      rcases least with _ | least
      · simp
      · simp
  | cons c s ih =>
      by_cases taken : p c = true
      · rcases most with _ | most
        · rcases least with _ | least
          · simp
          · simp
        · simp only [rep_run_cons, taken, List.head?_append, List.takeWhile_cons_of_pos,
            List.length_cons]
          rcases least with _ | least
          · simp [ih, Nat.add_min_add_right]
          · simp [ih, Nat.add_min_add_right]
      · rcases least with _ | least
        · simp [taken]
        · simp [taken]

theorem first_bounded (p : α → Bool) (least most : Nat) (s : List α) :
    (Re.rep p least (some most)).first s =
      if least ≤ min most (s.takeWhile p).length then some (s.drop (min most (s.takeWhile p).length))
      else none :=
  rep_run_bounded p least most s

/-! ## Splitting -/

/-- The rounds beyond the length of the text do not matter. -/
theorem split_loop_rounds (r : Re α) (gap s : List α) (rounds more : Nat)
    (enough : s.length < rounds) (enough' : s.length < more) :
    splitLoop r rounds gap s = splitLoop r more gap s := by
  induction rounds generalizing gap s more with
  | zero => omega
  | succ rounds ih =>
      rcases more with _ | more
      · omega
      · cases s with
        | nil => rfl
        | cons c s =>
            simp only [List.length_cons] at enough enough'
            simp only [splitLoop]
            rcases found : r.first (c :: s) with _ | rest
            · exact ih _ _ _ (by omega) (by omega)
            · simp only
              split_ifs with shorter
              · rw [ih _ _ more (by omega) (by omega)]
              · exact ih _ _ _ (by omega) (by omega)

@[simp] theorem split_nil (r : Re α) : r.split [] = [] := rfl

/-- One match of at least one character. -/
theorem split_cons {r : Re α} {c : α} {s rest : List α} (found : r.first (c :: s) = some rest)
    (shorter : rest.length ≤ s.length) :
    r.split (c :: s) = (c :: s).take (s.length + 1 - rest.length) :: r.split rest := by
  have rounds := split_loop_rounds r [] rest (s.length + 1) (rest.length + 1) (by omega) (by omega)
  simp only [Re.split, List.length_cons, splitLoop, found, if_pos shorter, gapPiece, if_pos,
    List.nil_append, rounds]

/-- A text without a match is one piece. -/
theorem split_unmatched {r : Re α} {s : List α}
    (none_ : ∀ c t, (c :: t) <:+ s → r.first (c :: t) = none) : r.split s = gapPiece s := by
  have loop : ∀ (rounds : Nat) (gap t : List α), t <:+ s → t.length < rounds →
      splitLoop r rounds gap t = gapPiece (gap ++ t) := by
    intro rounds
    induction rounds with
    | zero =>
        intro gap t _ enough
        omega
    | succ rounds ih =>
        intro gap t inside enough
        cases t with
        | nil => rw [splitLoop, List.append_nil]
        | cons c t =>
            have tail := (List.suffix_cons c t).trans inside
            rw [List.length_cons] at enough
            simp only [splitLoop, none_ c t inside]
            rw [ih (gap ++ [c]) t tail (by omega), List.append_assoc, List.singleton_append]
  exact loop _ [] s (List.suffix_refl s) (Nat.lt_succ_self _)

theorem starts_loop_rounds (r : Re α) (s : List α) (rounds more : Nat)
    (enough : s.length < rounds) (enough' : s.length < more) :
    startsLoop r rounds s = startsLoop r more s := by
  induction rounds generalizing s more with
  | zero => omega
  | succ rounds ih =>
      rcases more with _ | more
      · omega
      · cases s with
        | nil => rfl
        | cons c s =>
            simp only [List.length_cons] at enough enough'
            simp only [startsLoop]
            rcases found : r.first (c :: s) with _ | rest
            · exact ih _ _ (by omega) (by omega)
            · simp only
              split_ifs with shorter
              · rw [ih _ more (by omega) (by omega)]
              · exact ih _ _ (by omega) (by omega)

@[simp] theorem starts_nil (r : Re α) : r.starts [] = [] := rfl

theorem starts_cons {r : Re α} {c : α} {s rest : List α} (found : r.first (c :: s) = some rest)
    (shorter : rest.length ≤ s.length) : r.starts (c :: s) = (c :: s) :: r.starts rest := by
  have rounds := starts_loop_rounds r rest (s.length + 1) (rest.length + 1) (by omega) (by omega)
  simp only [Re.starts, List.length_cons, startsLoop, found, if_pos shorter, rounds]

end Regex
