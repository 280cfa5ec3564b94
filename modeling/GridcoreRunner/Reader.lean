import Mathlib.Data.List.Basic
import Mathlib.Data.List.Infix
import Mathlib.Tactic.Common

/-!
# Bounded reading

A cursor walks over the bytes of a file. A read that does not fit marks the cursor and
answers nothing, and no later read succeeds; a parser may also give up. The cursor keeps
the extents it has read and counts its steps. What holds of the reads holds of every
parser built from them: nothing outside the file is read, and a parser that ends inside a
part of the file cannot tell the part from the whole.
-/

namespace GridcoreRunner.Reader

set_option autoImplicit false

variable {α β : Type}

structure Cursor where
  pos : Nat
  ok : Bool
  reads : List (Nat × Nat)
  steps : Nat

/-- The cursor at the start of a file. -/
def Cursor.start : Cursor := { pos := 0, ok := true, reads := [], steps := 0 }

/-- A parser answers or gives up, and leaves the cursor where it stopped. -/
def Parser (α : Type) : Type := List UInt8 → Cursor → Option α × Cursor

instance : Monad Parser where
  pure a := fun _ c => (some a, c)
  bind p q := fun file c =>
    match p file c with
    | (none, c) => (none, c)
    | (some a, c) => q a file c

namespace Parser

def fail : Parser α := fun _ c => (none, c)

def ofOption : Option α → Parser α
  | none => fail
  | some a => pure a

/-- The next bytes, if there are as many. -/
def rd (n : Nat) : Parser (Option (List UInt8)) := fun file c =>
  if !c.ok || decide (file.length - c.pos < n) then
    (some none, { c with ok := false, steps := c.steps + 1 })
  else
    (some (some ((file.drop c.pos).take n)),
      { pos := c.pos + n, ok := true, reads := (c.pos, n) :: c.reads, steps := c.steps + 1 })

/-- How many bytes are left. -/
def left : Parser Nat := fun file c => (some (file.length - c.pos), c)

/-- Whether no read has failed so far. -/
def good : Parser Bool := fun _ c => (some c.ok, c)

/-- Where the cursor stands. -/
def position : Parser Nat := fun _ c => (some c.pos, c)

def require (condition : Prop) [Decidable condition] : Parser Unit :=
  if condition then pure () else fail

def times (p : Parser α) : Nat → Parser (List α)
  | 0 => pure []
  | n + 1 => do
      let a ← p
      let rest ← times p n
      pure (a :: rest)

theorem bind_eq (p : Parser α) (q : α → Parser β) (file : List UInt8) (c : Cursor) :
    (p >>= q) file c =
      match p file c with
      | (none, c) => (none, c)
      | (some a, c) => q a file c := rfl

theorem bind_some {p : Parser α} {q : α → Parser β} {file : List UInt8} {c c' : Cursor} {b : β} :
    (p >>= q) file c = (some b, c') ↔
      ∃ a middle, p file c = (some a, middle) ∧ q a file middle = (some b, c') := by
  rw [bind_eq]
  rcases p file c with ⟨_ | a, middle⟩
  · simp
  · simp

theorem bind_cases (p : Parser α) (q : α → Parser β) (file : List UInt8) (c : Cursor) :
    (∃ last, p file c = (none, last) ∧ (p >>= q) file c = (none, last)) ∨
      ∃ a middle, p file c = (some a, middle) ∧ (p >>= q) file c = q a file middle := by
  rw [bind_eq]
  rcases found : p file c with ⟨_ | a, middle⟩
  · exact Or.inl ⟨middle, rfl, rfl⟩
  · exact Or.inr ⟨a, middle, rfl, rfl⟩

end Parser

/-! ## What every parser keeps -/

/-- The cursor stands in the file, and so does all it has read. -/
def Cursor.Inside (size : Nat) (c : Cursor) : Prop :=
  c.pos ≤ size ∧ ∀ extent ∈ c.reads, extent.1 + extent.2 ≤ size

/-- The laws of a parser that reads through the cursor only. -/
structure Lawful (p : Parser α) : Prop where
  forward : ∀ file c, c.pos ≤ (p file c).2.pos
  sticky : ∀ file c, c.ok = false → (p file c).2.ok = false
  inside : ∀ file c, c.Inside file.length → (p file c).2.Inside file.length
  grow : ∀ file more c a c', p file c = (some a, c') → c'.ok = true →
    p (file ++ more) c = (some a, c')
  shrink : ∀ file more c a c', p (file ++ more) c = (some a, c') → c'.ok = true →
    c'.pos ≤ file.length → p file c = (some a, c')

open GridcoreRunner.Reader.Parser

theorem Lawful.ok_before {p : Parser α} (lawful : Lawful p) {file : List UInt8} {c c' : Cursor}
    {answer : Option α} (read : p file c = (answer, c')) (fine : c'.ok = true) : c.ok = true := by
  by_contra bad
  have late := lawful.sticky file c (by simpa using bad)
  rw [read] at late
  rw [late] at fine
  cases fine

theorem lawful_pure (a : α) : Lawful (pure a : Parser α) where
  forward _ _ := Nat.le_refl _
  sticky _ _ bad := bad
  inside _ _ before := before
  grow _ _ _ _ _ same _ := same
  shrink _ _ _ _ _ same _ _ := same

theorem lawful_fail : Lawful (fail : Parser α) where
  forward _ _ := Nat.le_refl _
  sticky _ _ bad := bad
  inside _ _ before := before
  grow _ _ _ _ _ same _ := by cases same
  shrink _ _ _ _ _ same _ _ := by cases same

theorem lawful_ofOption (answer : Option α) : Lawful (ofOption answer) := by
  cases answer with
  | none => exact lawful_fail
  | some a => exact lawful_pure a

theorem lawful_good : Lawful good where
  forward _ _ := Nat.le_refl _
  sticky _ _ bad := bad
  inside _ _ before := before
  grow _ _ _ _ _ same _ := same
  shrink _ _ _ _ _ same _ _ := same

theorem lawful_position : Lawful position where
  forward _ _ := Nat.le_refl _
  sticky _ _ bad := bad
  inside _ _ before := before
  grow _ _ _ _ _ same _ := same
  shrink _ _ _ _ _ same _ _ := same

theorem lawful_require (condition : Prop) [Decidable condition] : Lawful (require condition) := by
  unfold require
  split_ifs
  · exact lawful_pure ()
  · exact lawful_fail

theorem require_bind (condition : Prop) [Decidable condition] (p : Parser α) :
    (require condition >>= fun _ => p) = if condition then p else fail := by
  unfold require
  split_ifs
  · rfl
  · rfl

theorem rd_cases (n : Nat) (file : List UInt8) (c : Cursor) :
    (rd n file c = (some none, { c with ok := false, steps := c.steps + 1 }) ∧
        (c.ok = false ∨ file.length - c.pos < n)) ∨
      (rd n file c = (some (some ((file.drop c.pos).take n)),
          { pos := c.pos + n, ok := true, reads := (c.pos, n) :: c.reads, steps := c.steps + 1 }) ∧
        c.ok = true ∧ n ≤ file.length - c.pos) := by
  unfold rd
  by_cases short : (!c.ok || decide (file.length - c.pos < n)) = true
  · rw [if_pos short]
    simp only [Bool.or_eq_true, Bool.not_eq_true', decide_eq_true_eq] at short
    exact Or.inl ⟨rfl, short⟩
  · rw [if_neg short]
    simp only [Bool.or_eq_true, Bool.not_eq_true', decide_eq_true_eq] at short
    push Not at short
    exact Or.inr ⟨rfl, by simpa using short.1, short.2⟩

theorem lawful_rd (n : Nat) : Lawful (rd n) where
  forward file c := by
    rcases rd_cases n file c with ⟨same, _⟩ | ⟨same, _⟩ <;> rw [same]
    exact Nat.le_add_right _ _
  sticky file c bad := by
    rcases rd_cases n file c with ⟨same, _⟩ | ⟨same, fine, _⟩
    · rw [same]
    · rw [bad] at fine
      cases fine
  inside file c before := by
    rcases rd_cases n file c with ⟨same, _⟩ | ⟨same, _, room⟩
    · rw [same]
      exact before
    · rw [same]
      have here := before.1
      refine ⟨?_, ?_⟩
      · show c.pos + n ≤ file.length
        omega
      · intro extent inside
        rcases List.mem_cons.mp inside with rfl | old
        · show c.pos + n ≤ file.length
          omega
        · exact before.2 extent old
  grow file more c a c' read fine := by
    rcases rd_cases n file c with ⟨same, _⟩ | ⟨same, ok, room⟩
    · rw [same] at read
      cases read
      cases fine
    · rw [same] at read
      cases read
      rcases rd_cases n (file ++ more) c with ⟨_, bad | short⟩ | ⟨later, _⟩
      · rw [ok] at bad
        cases bad
      · rw [List.length_append] at short
        omega
      · rw [later]
        by_cases nothing : n = 0
        · rw [nothing, List.take_zero, List.take_zero]
        · rw [List.drop_append_of_le_length (by omega),
            List.take_append_of_le_length (by rw [List.length_drop]; omega)]
  shrink file more c a c' read fine ends := by
    rcases rd_cases n (file ++ more) c with ⟨same, _⟩ | ⟨same, ok, room⟩
    · rw [same] at read
      cases read
      cases fine
    · rw [same] at read
      cases read
      have fits : c.pos + n ≤ file.length := ends
      rcases rd_cases n file c with ⟨_, bad | short⟩ | ⟨later, _⟩
      · rw [ok] at bad
        cases bad
      · omega
      · rw [later]
        rw [List.drop_append_of_le_length (by omega),
          List.take_append_of_le_length (by rw [List.length_drop]; omega)]

theorem Lawful.bind {p : Parser α} {q : α → Parser β} (first : Lawful p)
    (second : ∀ a, Lawful (q a)) : Lawful (p >>= q) where
  forward file c := by
    have here := first.forward file c
    rcases bind_cases p q file c with ⟨last, answer, whole⟩ | ⟨a, middle, answer, whole⟩
    · rw [whole]
      rw [answer] at here
      exact here
    · rw [whole]
      rw [answer] at here
      exact Nat.le_trans here ((second a).forward file middle)
  sticky file c bad := by
    have here := first.sticky file c bad
    rcases bind_cases p q file c with ⟨last, answer, whole⟩ | ⟨a, middle, answer, whole⟩
    · rw [whole]
      rw [answer] at here
      exact here
    · rw [whole]
      rw [answer] at here
      exact (second a).sticky file middle here
  inside file c before := by
    have here := first.inside file c before
    rcases bind_cases p q file c with ⟨last, answer, whole⟩ | ⟨a, middle, answer, whole⟩
    · rw [whole]
      rw [answer] at here
      exact here
    · rw [whole]
      rw [answer] at here
      exact (second a).inside file middle here
  grow file more c b c' read fine := by
    rcases bind_some.mp read with ⟨a, middle, here, there⟩
    have early := (second a).ok_before there fine
    exact bind_some.mpr ⟨a, middle, first.grow file more c a middle here early,
      (second a).grow file more middle b c' there fine⟩
  shrink file more c b c' read fine ends := by
    rcases bind_some.mp read with ⟨a, middle, here, there⟩
    have early := (second a).ok_before there fine
    have before : middle.pos ≤ file.length := by
      have later := (second a).forward (file ++ more) middle
      rw [there] at later
      exact Nat.le_trans later ends
    exact bind_some.mpr ⟨a, middle, first.shrink file more c a middle here early before,
      (second a).shrink file more middle b c' there fine ends⟩

theorem Lawful.times {p : Parser α} (each : Lawful p) (n : Nat) : Lawful (Parser.times p n) := by
  induction n with
  | zero => exact lawful_pure []
  | succ n induction =>
      exact each.bind fun a => induction.bind fun rest => lawful_pure (a :: rest)

theorem Lawful.ite {p q : Parser α} {condition : Prop} [Decidable condition] (yes : Lawful p)
    (no : Lawful q) : Lawful (if condition then p else q) := by
  split_ifs
  · exact yes
  · exact no

/-! ## How far a parser gets -/

/-- An answer without a failed read takes at least this many bytes. -/
def Gains (p : Parser α) (count : Nat) : Prop :=
  ∀ file c a c', p file c = (some a, c') → c'.ok = true → c.pos + count ≤ c'.pos

theorem gains_rd (n : Nat) : Gains (rd n) n := by
  intro file c a c' read fine
  rcases rd_cases n file c with ⟨same, _⟩ | ⟨same, _⟩
  · rw [same] at read
    cases read
    cases fine
  · rw [same] at read
    cases read
    exact Nat.le_refl _

theorem Gains.bind {p : Parser α} {q : α → Parser β} {count : Nat} (first : Gains p count)
    (kept : ∀ a, Lawful (q a)) : Gains (p >>= q) count := by
  intro file c b c' read fine
  rcases bind_some.mp read with ⟨a, middle, here, there⟩
  have gained := first file c a middle here ((kept a).ok_before there fine)
  have later := (kept a).forward file middle
  rw [there] at later
  exact Nat.le_trans gained later

theorem Gains.times {p : Parser α} {count : Nat} (lawful : Lawful p) (each : Gains p count)
    (n : Nat) : Gains (Parser.times p n) (n * count) := by
  induction n with
  | zero =>
      intro file c a c' read _
      cases read
      simp
  | succ n induction =>
      intro file c a c' read fine
      rcases bind_some.mp read with ⟨first, middle, here, rest⟩
      rcases bind_some.mp rest with ⟨others, last, there, same⟩
      cases same
      have early := (lawful.times n).ok_before there fine
      have one := each file c first middle here early
      have more := induction file middle others c' there fine
      rw [Nat.add_mul]
      omega

/-- A loop over as many items as the rest of the file could hold. -/
def timesWithin (p : Parser α) (size n : Nat) : Parser (List α) := do
  let room ← left
  if n > room / size then fail else Parser.times p n

theorem timesWithin_eq (p : Parser α) (size n : Nat) (file : List UInt8) (c : Cursor) :
    timesWithin p size n file c =
      if n > (file.length - c.pos) / size then (none, c) else Parser.times p n file c := by
  show (if n > (file.length - c.pos) / size then (fail : Parser (List α)) else
    Parser.times p n) file c = _
  split_ifs
  · rfl
  · rfl

theorem Lawful.timesWithin {p : Parser α} (each : Lawful p) {size : Nat} (least : 0 < size)
    (gains : Gains p size) (n : Nat) : Lawful (timesWithin p size n) where
  forward file c := by
    rw [timesWithin_eq]
    split_ifs
    · exact Nat.le_refl _
    · exact (each.times n).forward file c
  sticky file c bad := by
    rw [timesWithin_eq]
    split_ifs
    · exact bad
    · exact (each.times n).sticky file c bad
  inside file c before := by
    rw [timesWithin_eq]
    split_ifs
    · exact before
    · exact (each.times n).inside file c before
  grow file more c a c' read fine := by
    rw [timesWithin_eq] at read ⊢
    split_ifs at read with beyond
    · cases read
    · have wider : (file.length - c.pos) / size ≤ ((file ++ more).length - c.pos) / size := by
        apply Nat.div_le_div_right
        rw [List.length_append]
        omega
      rw [if_neg (by omega)]
      exact (each.times n).grow file more c a c' read fine
  shrink file more c a c' read fine ends := by
    rw [timesWithin_eq] at read ⊢
    split_ifs at read with beyond
    · cases read
    · have used := gains.times each n (file ++ more) c a c' read fine
      have fits : n ≤ (file.length - c.pos) / size := by
        rw [Nat.le_div_iff_mul_le least]
        omega
      rw [if_neg (by omega)]
      exact (each.times n).shrink file more c a c' read fine ends

/-! ## How many steps a parser takes -/

/-- Steps are paid for with bytes: an answer leaves `earn` to spare, and whatever else
happens is at most `slack` short. -/
structure Paced (p : Parser α) (earn : Int) (slack : Nat) : Prop where
  sticky : ∀ file c, c.ok = false → (p file c).2.ok = false
  spare : ∀ file c a c', p file c = (some a, c') → c'.ok = true →
    (c'.steps : Int) + earn + c.pos ≤ c.steps + c'.pos
  short : ∀ file c, (p file c).2.steps + c.pos ≤ c.steps + (p file c).2.pos + slack

/-- A parser that gives up when an earlier read has failed. -/
def Stops (p : Parser α) : Prop := ∀ file c, c.ok = false → (p file c).1 = none

theorem paced_pure (a : α) : Paced (pure a : Parser α) 0 0 where
  sticky := (lawful_pure a).sticky
  spare file c b c' read _ := by
    cases read
    omega
  short _ _ := Nat.le_refl _

theorem paced_fail : Paced (fail : Parser α) 0 0 where
  sticky := lawful_fail.sticky
  spare _ _ _ _ read _ := by cases read
  short _ _ := Nat.le_refl _

theorem paced_ofOption (answer : Option α) : Paced (ofOption answer) 0 0 := by
  cases answer with
  | none => exact paced_fail
  | some a => exact paced_pure a

theorem paced_require (condition : Prop) [Decidable condition] :
    Paced (require condition) 0 0 := by
  unfold require
  split_ifs
  · exact paced_pure ()
  · exact paced_fail

theorem paced_good : Paced good 0 0 where
  sticky := lawful_good.sticky
  spare file c b c' read _ := by
    cases read
    omega
  short _ _ := Nat.le_refl _

theorem paced_position : Paced position 0 0 where
  sticky := lawful_position.sticky
  spare file c b c' read _ := by
    cases read
    omega
  short _ _ := Nat.le_refl _

theorem paced_rd (n : Nat) : Paced (rd n) ((n : Int) - 1) 1 where
  sticky := (lawful_rd n).sticky
  spare file c a c' read fine := by
    rcases rd_cases n file c with ⟨same, _⟩ | ⟨same, _⟩
    · rw [same] at read
      cases read
      cases fine
    · rw [same] at read
      cases read
      dsimp only
      push_cast
      omega
  short file c := by
    rcases rd_cases n file c with ⟨same, _⟩ | ⟨same, _⟩
    · rw [same]
      dsimp only
      omega
    · rw [same]
      dsimp only
      omega

theorem Paced.weaken {p : Parser α} {earn earn' : Int} {slack slack' : Nat}
    (paced : Paced p earn slack) (less : earn' ≤ earn) (more : slack ≤ slack') :
    Paced p earn' slack' where
  sticky := paced.sticky
  spare file c a c' read fine := by
    have here := paced.spare file c a c' read fine
    omega
  short file c := by
    have here := paced.short file c
    omega

theorem Paced.ok_before {p : Parser α} {earn : Int} {slack : Nat} (paced : Paced p earn slack)
    {file : List UInt8} {c c' : Cursor} {answer : Option α} (read : p file c = (answer, c'))
    (fine : c'.ok = true) : c.ok = true := by
  by_contra bad
  have late := paced.sticky file c (by simpa using bad)
  rw [read] at late
  rw [late] at fine
  cases fine

theorem Paced.bind {p : Parser α} {q : α → Parser β} {earn earn' : Int} {slack slack' : Nat}
    (first : Paced p earn slack) (second : ∀ a, Paced (q a) earn' slack') :
    Paced (p >>= q) (earn + earn') (slack + slack') where
  sticky file c bad := by
    have here := first.sticky file c bad
    rcases bind_cases p q file c with ⟨last, answer, whole⟩ | ⟨a, middle, answer, whole⟩
    · rw [whole]
      rw [answer] at here
      exact here
    · rw [whole]
      rw [answer] at here
      exact (second a).sticky file middle here
  spare file c b c' read fine := by
    rcases bind_some.mp read with ⟨a, middle, here, there⟩
    have early := (second a).ok_before there fine
    have one := first.spare file c a middle here early
    have two := (second a).spare file middle b c' there fine
    omega
  short file c := by
    have one := first.short file c
    rcases bind_cases p q file c with ⟨last, answer, whole⟩ | ⟨a, middle, answer, whole⟩
    · rw [answer] at one
      rw [whole]
      dsimp only at one ⊢
      omega
    · have two := (second a).short file middle
      rw [answer] at one
      rw [whole]
      dsimp only at one
      omega

theorem Stops.bind {p : Parser α} {q : α → Parser β} (first : Stops p) : Stops (p >>= q) := by
  intro file c bad
  have here := first file c bad
  rcases bind_cases p q file c with ⟨last, answer, whole⟩ | ⟨a, middle, answer, whole⟩
  · rw [whole]
  · rw [answer] at here
    cases here

/-- A loop whose items stop after a failed read: the next item is the last that is tried. -/
theorem Paced.times {p : Parser α} {earn : Int} {slack : Nat} (each : Paced p earn slack)
    (stops : Stops p) (positive : 0 ≤ earn) (n : Nat) :
    Paced (Parser.times p n) 0 (2 * slack) := by
  induction n with
  | zero => exact (paced_pure ([] : List α)).weaken (Int.le_refl 0) (Nat.zero_le _)
  | succ n induction =>
      have parts := each.bind fun a => induction.bind fun rest => paced_pure (a :: rest)
      constructor
      · exact parts.sticky
      · intro file c a c' read fine
        have whole := parts.spare file c a c' read fine
        omega
      · intro file c
        have one := each.short file c
        rcases bind_cases p (fun a => Parser.times p n >>= fun rest => pure (a :: rest)) file c
          with ⟨last, answer, whole⟩ | ⟨a, middle, answer, whole⟩
        · have whole' : Parser.times p (n + 1) file c = (none, last) := whole
          rw [answer] at one
          rw [whole']
          dsimp only at one ⊢
          omega
        · have whole' : Parser.times p (n + 1) file c =
              (Parser.times p n >>= fun rest => pure (a :: rest)) file middle := whole
          rw [whole']
          rw [answer] at one
          dsimp only at one
          by_cases fine : middle.ok = true
          · have two := (induction.bind fun rest => paced_pure (a :: rest)).short file middle
            have paid := each.spare file c a middle answer fine
            omega
          · have bad : middle.ok = false := by simpa using fine
            cases n with
            | zero =>
                have same : (Parser.times p 0 >>= fun rest => (pure (a :: rest) : Parser (List α)))
                    file middle = (some [a], middle) := rfl
                rw [same]
                dsimp only
                omega
            | succ n =>
                have two := each.short file middle
                have gives := stops file middle bad
                have same : ((Parser.times p (n + 1) >>= fun rest =>
                    (pure (a :: rest) : Parser (List α))) file middle) =
                    (none, (p file middle).2) := by
                  rcases found : p file middle with ⟨_ | b, later⟩
                  · have given : Parser.times p (n + 1) file middle = (none, later) := by
                      show (p >>= _) file middle = _
                      rw [bind_eq, found]
                    rw [bind_eq, given]
                  · rw [found] at gives
                    cases gives
                rw [same]
                dsimp only
                omega

/-- A short loop pays each item on its own. -/
theorem Paced.timesEach {p : Parser α} {earn : Int} {slack : Nat} (each : Paced p earn slack)
    (positive : 0 ≤ earn) (n : Nat) : Paced (Parser.times p n) 0 (n * slack) := by
  induction n with
  | zero => exact (paced_pure ([] : List α)).weaken (Int.le_refl 0) (Nat.zero_le _)
  | succ n induction =>
      apply (each.bind fun a => induction.bind fun rest => paced_pure (a :: rest)).weaken
      · omega
      · rw [Nat.add_mul]
        omega

theorem Paced.timesWithin {p : Parser α} {earn : Int} {slack : Nat} (each : Paced p earn slack)
    (stops : Stops p) (positive : 0 ≤ earn) (size n : Nat) :
    Paced (timesWithin p size n) 0 (2 * slack) where
  sticky file c bad := by
    rw [timesWithin_eq]
    split_ifs
    · exact bad
    · exact (each.times stops positive n).sticky file c bad
  spare file c a c' read fine := by
    rw [timesWithin_eq] at read
    split_ifs at read
    · cases read
    · exact (each.times stops positive n).spare file c a c' read fine
  short file c := by
    rw [timesWithin_eq]
    split_ifs
    · exact Nat.le_add_right _ _
    · exact (each.times stops positive n).short file c

/-- What comes after a condition may use it. -/
theorem Paced.require {p : Parser α} {earn : Int} {slack : Nat} {condition : Prop}
    [Decidable condition] (paced : condition → Paced p earn slack) :
    Paced (require condition >>= fun _ => p) earn slack := by
  rw [require_bind]
  split_ifs with holds
  · exact paced holds
  · constructor
    · intro file c bad
      exact bad
    · intro file c a c' read _
      cases read
    · intro file c
      exact Nat.le_add_right _ _

theorem Paced.ite {p q : Parser α} {earn : Int} {slack : Nat} {condition : Prop}
    [Decidable condition] (yes : Paced p earn slack) (no : Paced q earn slack) :
    Paced (if condition then p else q) earn slack := by
  split_ifs
  · exact yes
  · exact no

/-! ## What an answer says of the file -/

/-- What a parser answers stands in this relation to the file it was given. -/
structure Yields (p : Parser α) (relation : List UInt8 → α → Prop) : Prop where
  answers : ∀ file c a c', c.Inside file.length → p file c = (some a, c') → relation file a

theorem Yields.bind {p : Parser α} {q : α → Parser β} {here : List UInt8 → α → Prop}
    {there : List UInt8 → β → Prop} (first : Yields p here) (kept : Lawful p)
    (second : ∀ a, Yields (q a) fun file b => here file a → there file b) :
    Yields (p >>= q) there := by
  constructor
  intro file c b c' before read
  rcases bind_some.mp read with ⟨a, middle, one, two⟩
  have inside := kept.inside file c before
  rw [one] at inside
  exact (second a).answers file middle b c' inside two (first.answers file c a middle before one)

theorem Yields.require {p : Parser α} {relation : List UInt8 → α → Prop} {condition : Prop}
    [Decidable condition] (yields : condition → Yields p relation) :
    Yields (require condition >>= fun _ => p) relation := by
  rw [require_bind]
  split_ifs with holds
  · exact yields holds
  · constructor
    intro file c a c' _ read
    cases read

theorem Yields.weaken {p : Parser α} {relation relation' : List UInt8 → α → Prop}
    (yields : Yields p relation) (imply : ∀ file a, relation file a → relation' file a) :
    Yields p relation' :=
  ⟨fun file c a c' before read => imply file a (yields.answers file c a c' before read)⟩

theorem Yields.times {p : Parser α} {relation : List UInt8 → α → Prop} (each : Yields p relation)
    (kept : Lawful p) (n : Nat) :
    Yields (Parser.times p n) fun file items => ∀ item ∈ items, relation file item := by
  induction n with
  | zero =>
      constructor
      intro file c items c' _ read
      cases read
      intro item inside
      cases inside
  | succ n induction =>
      constructor
      intro file c items c' before read
      rcases bind_some.mp read with ⟨a, middle, one, rest⟩
      rcases bind_some.mp rest with ⟨others, last, two, same⟩
      cases same
      have inside := kept.inside file c before
      rw [one] at inside
      intro item among
      rcases List.mem_cons.mp among with rfl | later
      · exact each.answers file c item middle before one
      · exact induction.answers file middle others c' inside two item later

theorem Yields.timesWithin {p : Parser α} {relation : List UInt8 → α → Prop}
    (each : Yields p relation) (kept : Lawful p) (size n : Nat) :
    Yields (timesWithin p size n) fun file items => ∀ item ∈ items, relation file item := by
  constructor
  intro file c items c' before read
  rw [timesWithin_eq] at read
  split_ifs at read
  · cases read
  · exact (each.times kept n).answers file c items c' before read

theorem times_length {p : Parser α} {n : Nat} {file : List UInt8} {c c' : Cursor} {items : List α}
    (read : Parser.times p n file c = (some items, c')) : items.length = n := by
  induction n generalizing c items with
  | zero =>
      cases read
      rfl
  | succ n induction =>
      rcases bind_some.mp read with ⟨a, middle, _, rest⟩
      rcases bind_some.mp rest with ⟨others, last, two, same⟩
      cases same
      rw [List.length_cons, induction two]

end GridcoreRunner.Reader
