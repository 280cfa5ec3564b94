import GridcoreRunner.Json.ReadScalars

/-!
# Text as a JSON string

`json_escape` writes a byte string as the content of a JSON string. It reads one
well-formed character at a time; a byte that begins none is written as U+FFFD. Two
halves written apart read back as the whole unless a character was cut.
-/

namespace GridcoreRunner.Json

set_option autoImplicit false

open GridcoreRunner.Utf8

/-! ## The writer -/

def namedEscape (c : UInt8) : Option Bytes :=
  if c = quote then some [backslash, quote]
  else if c = backslash then some [backslash, backslash]
  else if c = 0x0a then some [backslash, letterN]
  else if c = 0x0d then some [backslash, letterR]
  else if c = 0x09 then some [backslash, letterT]
  else if c = 0x08 then some [backslash, letterB]
  else if c = 0x0c then some [backslash, letterF]
  else none

def hexLower (n : Nat) : UInt8 := UInt8.ofNat (if n < 10 then 0x30 + n else 0x57 + n)

/-- `\u%04x` of a control character. -/
def controlEscape (c : UInt8) : Bytes :=
  [backslash, letterU, zero, zero, hexLower (c.toNat / 16), hexLower (c.toNat % 16)]

/-- U+FFFD. -/
def replacement : Bytes := [0xEF, 0xBF, 0xBD]

/-- The loop of `json_escape`; each round reads at least one byte. -/
def escapeLoop (cap : Nat) : Nat → Bytes → Bytes → Bytes
  | 0, _, out => out
  | _ + 1, [], out => out
  | rounds + 1, c :: s, out =>
      if out.length + 8 < cap then
        match namedEscape c with
        | some text => escapeLoop cap rounds s (out ++ text)
        | none =>
            if c < 0x20 then escapeLoop cap rounds s (out ++ controlEscape c)
            else if c < 0x80 then escapeLoop cap rounds s (out ++ [c])
            else
              let len := utf8Seq (c :: s)
              if len = 0 then escapeLoop cap rounds s (out ++ replacement)
              else escapeLoop cap rounds ((c :: s).drop len) (out ++ (c :: s).take len)
      else out

/-- `sb_esc`: `json_escape` with room for six bytes a byte. -/
def sbEsc (s : Bytes) : Bytes := escapeLoop (s.length * 6 + 8) s.length s []

/-! ## The reader -/

/-- The character behind `\u`. -/
def readUnicode : Bytes → Option (Nat × Bytes)
  | a :: b :: c :: d :: s =>
      (hex4 a b c d).bind fun cp =>
        if isHigh cp then
          match s with
          | back :: u :: a' :: b' :: c' :: d' :: s' =>
              if back = backslash ∧ u = letterU then
                (hex4 a' b' c' d').bind fun lo =>
                  if isLow lo then some (joinPair cp lo, s') else none
              else none
          | _ => none
        else if isLow cp then none
        else some (cp, s)
  | _ => none

/-- What a client reads from the content of a JSON string. -/
def decodeLoop : Nat → Bytes → Option Bytes
  | 0, _ => none
  | _ + 1, [] => some []
  | rounds + 1, c :: s =>
      if c = quote ∨ c < 0x20 then none
      else if c = backslash then
        match s with
        | [] => none
        | e :: s =>
            if e = letterU then
              (readUnicode s).bind fun (cp, s) => (decodeLoop rounds s).map (u8Emit cp ++ ·)
            else (unescape e).bind fun b => (decodeLoop rounds s).map ([b] ++ ·)
      else
        let len := utf8Seq (c :: s)
        if len = 0 then none
        else (decodeLoop rounds ((c :: s).drop len)).map ((c :: s).take len ++ ·)

def decodeContent (s : Bytes) : Option Bytes := decodeLoop (s.length + 1) s

/-! ## Characters -/

/-- A continuation byte begins no character. -/
def Continues (c : UInt8) : Prop := 0x80 ≤ c ∧ c ≤ 0xBF

theorem utf8_seq_continues {c : UInt8} (continues : Continues c) (s : Bytes) :
    utf8Seq (c :: s) = 0 := by
  have none_ : lead c = none := by
    have wide := continues.1
    have below := continues.2
    simp only [lead]
    grind
  rcases utf8_seq_lead s continues.1 with ⟨-, zero⟩ | ⟨more, low, up, owes, -⟩
  · exact zero
  · rw [none_] at owes
    cases owes

theorem utf8_seq_ascii {c : UInt8} (ascii : c < 0x80) (s : Bytes) : utf8Seq (c :: s) = 1 := by
  simp [utf8Seq, ascii]

theorem lead_up {c : UInt8} {more : Nat} {low up : UInt8}
    (owes : lead c = some (.owes more low up)) : up ≤ 0xBF := by
  simp only [lead] at owes
  grind

theorem run_owes_continues {more : Nat} {low up : UInt8} {text : Bytes} (above : 0x80 ≤ low)
    (below : up ≤ 0xBF) (ran : run (.owes more low up) text = some .ground)
    (short : text.length = more + 1) : ∀ b ∈ text, Continues b := by
  induction more generalizing low up text with
  | zero =>
      rcases text with _ | ⟨b, text⟩
      · simp at ran
      · simp only [run_owes_zero] at ran
        have none_ : text = [] := by simpa using short
        rw [none_]
        intro x inside
        rw [List.mem_singleton.mp inside]
        constructor <;> grind
  | succ more induction =>
      rcases text with _ | ⟨b, text⟩
      · simp at ran
      · simp only [run_owes_succ] at ran
        have later := induction (UInt8.le_refl _) (UInt8.le_refl _) ran.2 (by simpa using short)
        intro x inside
        rcases List.mem_cons.mp inside with here | there
        · rw [here]
          constructor <;> grind
        · exact later x there

/-- A character is read the same wherever it stands. -/
theorem utf8_seq_spec {c : UInt8} {s : Bytes} (some_ : 0 < utf8Seq (c :: s)) :
    utf8Seq (c :: s) ≤ (c :: s).length ∧
      (∀ t, utf8Seq ((c :: s).take (utf8Seq (c :: s)) ++ t) = utf8Seq (c :: s)) ∧
      (∀ b ∈ ((c :: s).take (utf8Seq (c :: s))).tail, Continues b) := by
  by_cases ascii : c < 0x80
  · rw [utf8_seq_ascii ascii]
    refine ⟨by simp, ?_, by simp⟩
    intro t
    exact utf8_seq_ascii ascii t
  · have wide : 0x80 ≤ c := by grind
    rcases utf8_seq_lead s wide with ⟨-, zero⟩ | ⟨more, low, up, owes, above, reads⟩
    · omega
    · have ran : run (.owes more low up) (s.take (more + 1)) = some .ground := by
        by_contra stuck
        rw [if_neg stuck] at reads
        omega
      rw [if_pos ran] at reads
      have room := (run_owes_take above ran).1
      have length : (s.take (more + 1)).length = more + 1 := by
        rw [List.length_take]
        omega
      rw [reads, List.take_succ_cons, List.tail_cons]
      refine ⟨by rw [List.length_cons]; omega, ?_, ?_⟩
      · intro t
        rcases utf8_seq_lead (s.take (more + 1) ++ t) wide with
          ⟨none_, -⟩ | ⟨more', low', up', owes', -, reads'⟩
        · rw [none_] at owes
          cases owes
        · rw [owes] at owes'
          cases owes'
          rw [List.take_left' length, if_pos ran] at reads'
          exact reads'
      · exact run_owes_continues above (lead_up owes) ran length

/-! ## Units -/

/-- Well-formed characters, and the single bytes that begin none. Each round reads
at least one byte. -/
def unitsLoop : Nat → Bytes → List Bytes
  | 0, _ => []
  | _ + 1, [] => []
  | rounds + 1, c :: s =>
      (c :: s).take (max 1 (utf8Seq (c :: s))) ::
        unitsLoop rounds ((c :: s).drop (max 1 (utf8Seq (c :: s))))

def units (s : Bytes) : List Bytes := unitsLoop s.length s

/-- What a client gets to see of a unit. -/
def shown (u : Bytes) : Bytes := if utf8Seq u = u.length then u else replacement

def cleaned (s : Bytes) : Bytes := (units s).flatMap shown

theorem units_loop_rounds {rounds more : Nat} {s : Bytes} (enough : s.length ≤ rounds)
    (also : s.length ≤ more) : unitsLoop rounds s = unitsLoop more s := by
  induction rounds generalizing more s with
  | zero =>
      have none_ : s = [] := by simpa using enough
      rw [none_]
      cases more <;> rfl
  | succ rounds induction =>
      rcases s with _ | ⟨c, s⟩
      · cases more <;> rfl
      · rcases more with _ | more
        · simp at also
        · simp only [List.length_cons] at enough also
          rw [unitsLoop, unitsLoop]
          congr 1
          apply induction
          · rw [List.length_drop, List.length_cons]
            omega
          · rw [List.length_drop, List.length_cons]
            omega

@[simp] theorem units_nil : units [] = [] := rfl

theorem units_cons (c : UInt8) (s : Bytes) :
    units (c :: s) = (c :: s).take (max 1 (utf8Seq (c :: s))) ::
      units ((c :: s).drop (max 1 (utf8Seq (c :: s)))) := by
  rw [units, List.length_cons, unitsLoop, units]
  congr 1
  apply units_loop_rounds
  · rw [List.length_drop, List.length_cons]
    omega
  · exact Nat.le_refl _

/-- Induction on a text, a unit at a time. -/
theorem by_units {holds : Bytes → Prop} (nil : holds [])
    (cons : ∀ c s, holds ((c :: s).drop (max 1 (utf8Seq (c :: s)))) → holds (c :: s))
    (s : Bytes) : holds s := by
  have all : ∀ n, ∀ s : Bytes, s.length ≤ n → holds s := by
    intro n
    induction n with
    | zero =>
        intro s short
        have none_ : s = [] := by simpa using short
        rw [none_]
        exact nil
    | succ n induction =>
        intro s short
        rcases s with _ | ⟨c, s⟩
        · exact nil
        · apply cons
          apply induction
          rw [List.length_drop]
          omega
  exact all s.length s (Nat.le_refl _)

inductive IsUnit : Bytes → Prop
  | character (c : UInt8) (s : Bytes) (whole : utf8Seq (c :: s) = (c :: s).length) : IsUnit (c :: s)
  | stray (c : UInt8) (wide : 0x80 ≤ c) (alone : utf8Seq [c] = 0) : IsUnit [c]

theorem utf8_seq_single {c : UInt8} (wide : 0x80 ≤ c) : utf8Seq [c] = 0 := by
  rcases utf8_seq_lead [] wide with ⟨-, zero⟩ | ⟨more, low, up, -, above, reads⟩
  · exact zero
  · rw [reads, if_neg]
    intro ran
    have room := (run_owes_take above ran).1
    simp at room

theorem units_unit (s : Bytes) : ∀ u ∈ units s, IsUnit u := by
  induction s using by_units with
  | nil => simp
  | cons c s induction =>
      intro u inside
      rw [units_cons] at inside
      rcases List.mem_cons.mp inside with here | there
      · rw [here]
        by_cases some_ : 0 < utf8Seq (c :: s)
        · have spec := utf8_seq_spec some_
          have same := spec.2.1 []
          have length : max 1 (utf8Seq (c :: s)) = utf8Seq (c :: s) := by omega
          rw [List.append_nil] at same
          rw [length]
          rcases unit : (c :: s).take (utf8Seq (c :: s)) with _ | ⟨d, t⟩
          · have size := congrArg List.length unit
            rw [List.length_take] at size
            simp only [List.length_nil] at size
            omega
          · apply IsUnit.character
            have size := congrArg List.length unit
            rw [List.length_take] at size
            rw [← unit, same, unit, ← size]
            omega
        · have none_ : utf8Seq (c :: s) = 0 := by omega
          have wide : 0x80 ≤ c := by
            by_contra ascii
            rw [utf8_seq_ascii (by grind)] at none_
            omega
          rw [none_]
          exact IsUnit.stray c wide (utf8_seq_single wide)
      · exact induction u there

end GridcoreRunner.Json
