import GridcoreRunner.Json.Accept

/-!
# The text of the final branch

`ts_final_str` of the streaming demultiplexer: it unescapes the content string of the final
branch as its bytes arrive, holding back an escape that is not decided yet. However the body
of a string and its closing quote are cut into chunks, the sink gets what `parse_string`
reads from the whole, and one state is left.
-/

namespace GridcoreRunner.Demux

set_option autoImplicit false

open GridcoreRunner.Json

/-! ## One escape -/

/-- `json_unescape` of a text that begins with a backslash: nothing for a bad escape, zero
bytes used while it is undecided. -/
def jsonUnescape (s : Bytes) : Option (Nat × Bytes) :=
  match s with
  | [] => none
  | c :: s =>
      if c ≠ backslash then none
      else
        match s with
        | [] => some (0, [])
        | e :: s =>
            if e ≠ letterU then (unescape e).map fun simple => (2, [simple])
            else
              match s with
              | a :: b :: c :: d :: s =>
                  (hex4 a b c d).bind fun cp =>
                    if cp = 0 then none
                    else if isHigh cp then
                      match s with
                      | [] => some (0, [])
                      | back :: s =>
                          if back ≠ backslash then none
                          else
                            match s with
                            | [] => some (0, [])
                            | u :: s =>
                                if u ≠ letterU then none
                                else
                                  match s with
                                  | a :: b :: c :: d :: _ =>
                                      (hex4 a b c d).bind fun lo =>
                                        if isLow lo then some (12, u8Emit (joinPair cp lo))
                                        else none
                                  | _ => some (0, [])
                    else if isLow cp then none
                    else some (6, u8Emit cp)
              | _ => some (0, [])

/-! ## The demultiplexer -/

/-- The states of `tool_stream`. -/
inductive Phase
  | tool | args | finalKey | finalStr | value | atem | harmony
  | g4Start | g4Thought | g4Calls | g4Text | museHeader | museContent | entrySep | done
deriving DecidableEq, Repr

/-- What a sink is told. -/
inductive Event
  | content (bytes : Bytes)
  | callEnd

def Event.text : Event → Bytes
  | .content bytes => bytes
  | .callEnd => []

/-- The callbacks that are there, and what they answer after all they were told. -/
structure Sink where
  content : Bool
  callEnd : Bool
  answer : List Event → ℤ

/-- `tool_stream`, as far as the value of an entry is concerned; `parallel` is the flag of its
envelope, `log` what the sink was told. -/
structure ToolStream where
  parallel : Bool
  state : Phase
  name : Option Bytes
  called : Bool
  depth : ℤ
  started : Bool
  inStr : Bool
  esc : Bool
  pend : Bytes
  log : List Event

def ToolStream.tell (s : ToolStream) (event : Event) : ToolStream :=
  { s with log := s.log ++ [event] }

/-- `sizeof(s->pend)`. -/
def pendSize : Nat := 16

section Feed

variable (sink : Sink) (toolStreamFeed : ToolStream → Bytes → ToolStream × ℤ)

/-- `ts_entry_close`; what is left of the input goes to `tool_stream_feed`. -/
def tsEntryClose (s : ToolStream) (rest : Bytes) (rc : ℤ) : ToolStream × ℤ :=
  if rc ≠ 0 then ({ s with state := .done }, rc)
  else if s.parallel = false then ({ s with state := .done }, 0)
  else
    let wasCalled := s.called
    let s := { s with
      name := none
      called := false
      depth := 0
      started := false
      inStr := false
      esc := false
      pend := []
      state := .entrySep }
    let told := if wasCalled && sink.callEnd then s.tell .callEnd else s
    let rc := if wasCalled && sink.callEnd then sink.answer told.log else 0
    if rc ≠ 0 then ({ told with state := .done }, rc)
    else if rest ≠ [] then toolStreamFeed told rest
    else (told, 0)

/-- Neither a quote nor a backslash. -/
def plainByte (c : UInt8) : Bool := c != quote && c != backslash

/-- `s->sink.content`, where it is there. -/
def tellContent (s : ToolStream) (bytes : Bytes) : ToolStream × ℤ :=
  if sink.content then (s.tell (.content bytes), sink.answer (s.tell (.content bytes)).log)
  else (s, 0)

/-- The loop of `ts_final_str`; `replay` is the function itself, for the bytes an escape
has declined. Each round reads at least one byte. -/
def finalLoop (replay : ToolStream → Bytes → ToolStream × ℤ) :
    Nat → ToolStream → ℤ → Bytes → ToolStream × ℤ
  | 0, s, rc, _ => (s, rc)
  | _ + 1, s, rc, [] => (s, rc)
  | rounds + 1, s, rc, c :: b =>
      if rc ≠ 0 then (s, rc)
      else if s.pend ≠ [] then
        let s := if s.pend.length < pendSize then { s with pend := s.pend ++ [c] } else s
        match jsonUnescape s.pend with
        | none => finalLoop replay rounds { s with pend := [] } rc b
        | some (used, out) =>
            if used = 0 then finalLoop replay rounds s rc b
            else
              let told := if out ≠ [] then tellContent sink s out else (s, rc)
              let tail := s.pend.drop used
              let s := { told.1 with pend := [] }
              if tail ≠ [] ∧ told.2 = 0 then
                let replayed := replay s tail
                if replayed.1.state ≠ .finalStr then replayed
                else finalLoop replay rounds replayed.1 replayed.2 b
              else finalLoop replay rounds s told.2 b
      else if c = quote then tsEntryClose sink toolStreamFeed s b rc
      else if c = backslash then finalLoop replay rounds { s with pend := [c] } rc b
      else
        let told := tellContent sink s ((c :: b).takeWhile plainByte)
        finalLoop replay rounds told.1 told.2 ((c :: b).dropWhile plainByte)

/-- `ts_final_str`; a replay is shorter than what was pending before it. -/
def finalStr : Nat → ToolStream → Bytes → ToolStream × ℤ
  | 0, s, _ => (s, 0)
  | depth + 1, s, b => finalLoop sink toolStreamFeed (finalStr depth) b.length s 0 b

def tsFinalStr (s : ToolStream) (b : Bytes) : ToolStream × ℤ :=
  finalStr sink toolStreamFeed pendSize s b

/-- Chunk after chunk, until a callback asks to stop. -/
def feedChunks (s : ToolStream) (chunks : List Bytes) : ToolStream × ℤ :=
  chunks.foldl (fun r b => if r.2 ≠ 0 then r else tsFinalStr sink toolStreamFeed r.1 b) (s, 0)

end Feed

/-- All the bytes a log hands on. -/
def told (log : List Event) : Bytes := log.flatMap Event.text

/-! ## Escapes that are not all there -/

theorem unescape_quad (quad : Quad) (single : quad.cp ≠ 0 ∧ isHigh quad.cp = false ∧
    isLow quad.cp = false) :
    jsonUnescape (backslash :: letterU :: quad.text) = some (6, u8Emit quad.cp) := by
  have digits := quad.reads
  simp [jsonUnescape, Quad.text, digits, single.1, single.2.1, single.2.2]

theorem quad_positive {quad : Quad} (high : isHigh quad.cp = true) : quad.cp ≠ 0 := by
  intro nul
  rw [nul] at high
  exact absurd high (by decide)

/-- A whole escape is used up to its last byte. -/
theorem unescape_whole {piece : Piece} (escape : piece.Escape) :
    jsonUnescape piece.text = some (piece.text.length, piece.decode) := by
  cases piece with
  | raw c plain => exact escape.elim
  | short e b known =>
      have other : e ≠ letterU := by
        intro same
        rw [same] at known
        cases known
      simp [jsonUnescape, Piece.text, Piece.decode, other, known]
  | code quad single => exact unescape_quad quad single
  | pair high low halves =>
      have digits := high.reads
      have others := low.reads
      simp [jsonUnescape, Piece.text, Piece.decode, Quad.text, digits, others,
        quad_positive halves.1, halves.1, halves.2]

/-- A part of an escape is not decided. -/
theorem unescape_part {piece : Piece} (escape : piece.Escape) {n : Nat} (some_ : 0 < n)
    (short : n < piece.text.length) : jsonUnescape (piece.text.take n) = some (0, []) := by
  cases piece with
  | raw c plain => exact escape.elim
  | short e b known =>
      have one : n = 1 := by
        simp only [Piece.text, List.length_cons, List.length_nil] at short
        omega
      rw [one]
      rfl
  | code quad single =>
      simp only [Piece.text, Quad.text, List.length_cons, List.length_nil] at short
      have range : n = 1 ∨ n = 2 ∨ n = 3 ∨ n = 4 ∨ n = 5 := by omega
      rcases range with rfl | rfl | rfl | rfl | rfl <;> rfl
  | pair high low halves =>
      have digits := high.reads
      have positive := quad_positive halves.1
      simp only [Piece.text, Quad.text, List.length_cons, List.length_append,
        List.length_nil] at short
      have range : n = 1 ∨ n = 2 ∨ n = 3 ∨ n = 4 ∨ n = 5 ∨ n = 6 ∨ n = 7 ∨ n = 8 ∨ n = 9 ∨
          n = 10 ∨ n = 11 := by omega
      rcases range with rfl | rfl | rfl | rfl | rfl | rfl | rfl | rfl | rfl | rfl | rfl
      all_goals first
        | rfl
        | simp [jsonUnescape, Piece.text, Quad.text, digits, positive, halves.1]

theorem piece_size (piece : Piece) : piece.text.length ≤ 12 := by
  cases piece <;> simp [Piece.text, Quad.text]

theorem escape_decodes {piece : Piece} (escape : piece.Escape) : piece.decode ≠ [] := by
  have emits : ∀ cp, u8Emit cp ≠ [] := by
    intro cp
    unfold u8Emit
    split_ifs <;> exact List.cons_ne_nil _ _
  cases piece with
  | raw c plain => exact escape.elim
  | short e b known => exact List.cons_ne_nil b []
  | code quad single => exact emits quad.cp
  | pair high low halves => exact emits _

theorem escape_text {piece : Piece} (escape : piece.Escape) :
    ∃ tail, piece.text = backslash :: tail ∧ tail ≠ [] := by
  cases piece with
  | raw c plain => exact escape.elim
  | short e b known => exact ⟨_, rfl, List.cons_ne_nil _ _⟩
  | code quad single => exact ⟨_, rfl, List.cons_ne_nil _ _⟩
  | pair high low halves => exact ⟨_, rfl, List.cons_ne_nil _ _⟩

/-! ## Where the loop stands -/

/-- What is pending is the front of the escape the rest of the string begins with. -/
inductive Pending : Bytes → Chars → Prop
  | idle (chars : Chars) : Pending [] chars
  | front (piece : Piece) (chars : Chars) (escape : piece.Escape) (n : Nat) (some_ : 0 < n)
      (short : n < piece.text.length) : Pending (piece.text.take n) (piece :: chars)

/-- A run of plain bytes is raw pieces. -/
theorem plain_run {chars : Chars} {b later : Bytes}
    (spelled : b ++ later = chars.text ++ [quote]) :
    ∃ front back : Chars, chars = front ++ back ∧ front.text = b.takeWhile plainByte ∧
      front.decode = front.text ∧ b.dropWhile plainByte ++ later = back.text ++ [quote] := by
  induction b generalizing chars with
  | nil => exact ⟨[], chars, rfl, rfl, rfl, spelled⟩
  | cons c b induction =>
      by_cases plain : plainByte c = true
      · rcases chars with _ | ⟨piece, chars⟩
        · injection spelled with first _
          rw [first] at plain
          cases plain
        · cases piece with
          | raw x stands =>
              injection spelled with first others
              obtain ⟨front, back, split, text, decode, rest⟩ := induction others
              refine ⟨.raw x stands :: front, back, by rw [split]; rfl, ?_, ?_, ?_⟩
              · rw [List.takeWhile_cons_of_pos plain, chars_text_cons, text, first]
                rfl
              · rw [chars_decode_cons, chars_text_cons, decode]
                rfl
              · rw [List.dropWhile_cons_of_pos plain]
                exact rest
          | short e d known =>
              injection spelled with first _
              rw [first] at plain
              cases plain
          | code quad single =>
              injection spelled with first _
              rw [first] at plain
              cases plain
          | pair high low halves =>
              injection spelled with first _
              rw [first] at plain
              cases plain
      · refine ⟨[], chars, rfl, ?_, rfl, ?_⟩
        · rw [List.takeWhile_cons_of_neg plain]
          rfl
        · rw [List.dropWhile_cons_of_neg plain]
          exact spelled

section Accepting

/-- The content callback is there and never asks to stop; the others do not either. -/
def Sink.Accepts (sink : Sink) : Prop := sink.content = true ∧ ∀ log, sink.answer log = 0

variable {sink : Sink} (accepts : sink.Accepts)
  (toolStreamFeed : ToolStream → Bytes → ToolStream × ℤ)

include accepts in
theorem tell_content (s : ToolStream) (bytes : Bytes) :
    tellContent sink s bytes = (s.tell (.content bytes), 0) := by
  unfold tellContent
  rw [if_pos accepts.1, accepts.2]

theorem told_tell (s : ToolStream) (bytes : Bytes) :
    told (s.tell (.content bytes)).log = told s.log ++ bytes := by
  change (s.log ++ [Event.content bytes]).flatMap Event.text = _
  rw [List.flatMap_append, List.flatMap_singleton]
  rfl

/-- What a stream is without what its sink was told. -/
def ToolStream.still (s : ToolStream) : ToolStream := { s with log := [] }

include accepts in
/-- Closing an entry at the end of the input: the state does not depend on what was told. -/
theorem entry_close (s : ToolStream) (log : List Event) :
    (tsEntryClose sink toolStreamFeed { s with log := log } [] 0).2 = 0 ∧
      (tsEntryClose sink toolStreamFeed { s with log := log } [] 0).1.still =
        (tsEntryClose sink toolStreamFeed s [] 0).1.still ∧
      told (tsEntryClose sink toolStreamFeed { s with log := log } [] 0).1.log = told log := by
  have same : ∀ t : ToolStream, sink.answer t.log = 0 := fun t => accepts.2 t.log
  have ended : told (log ++ [Event.callEnd]) = told log := by
    unfold told
    rw [List.flatMap_append]
    exact List.append_nil _
  unfold tsEntryClose
  cases parallel : s.parallel with
  | false => simp [ToolStream.still]
  | true =>
      cases ends : s.called && sink.callEnd with
      | false => simp [ToolStream.still, ends]
      | true => simp [ToolStream.still, ends, accepts.2, ToolStream.tell, ended]

/-- Where the loop is after a chunk: inside the string, or past its closing quote. -/
inductive After (sink : Sink) (s : ToolStream) (chars : Chars) (later : Bytes) :
    ToolStream × ℤ → Prop
  | inside (pend : Bytes) (log : List Event) (rest : Chars) (pending : Pending pend rest)
      (spelled : pend ++ later = rest.text ++ [quote])
      (handed : told log ++ rest.decode = told s.log ++ chars.decode) :
      After sink s chars later ({ s with pend := pend, log := log }, 0)
  | closed (log : List Event) (ended : later = [])
      (handed : told log = told s.log ++ chars.decode) :
      After sink s chars later
        (tsEntryClose sink toolStreamFeed { s with pend := [], log := log } [] 0)

/-- What was handed on before does not change where a later part of the loop ends. -/
theorem After.earlier {s t : ToolStream} {chars rest : Chars} {later : Bytes}
    {r : ToolStream × ℤ} (after : After toolStreamFeed sink t rest later r)
    (same : ∃ pend log, t = { s with pend := pend, log := log })
    (handed : told t.log ++ rest.decode = told s.log ++ chars.decode) :
    After toolStreamFeed sink s chars later r := by
  obtain ⟨pend, log, rfl⟩ := same
  cases after with
  | inside pend' log' rest' pending spelled handed' =>
      exact .inside pend' log' rest' pending spelled (handed'.trans handed)
  | closed log' ended handed' => exact .closed log' ended (handed'.trans handed)

include accepts in
/-- The loop over a chunk, by its rounds. -/
theorem final_loop_after (replay : ToolStream → Bytes → ToolStream × ℤ) {rounds : Nat}
    {s : ToolStream} {b later : Bytes} {chars : Chars} (enough : b.length ≤ rounds)
    (pending : Pending s.pend chars) (spelled : s.pend ++ (b ++ later) = chars.text ++ [quote]) :
    After toolStreamFeed sink s chars later
      (finalLoop sink toolStreamFeed replay rounds s 0 b) := by
  induction rounds generalizing s b chars with
  | zero =>
      have none' : b = [] := List.length_eq_zero_iff.mp (by omega)
      rw [none'] at spelled ⊢
      exact .inside s.pend s.log chars pending spelled rfl
  | succ rounds induction =>
      rcases b with _ | ⟨c, b⟩
      · exact .inside s.pend s.log chars pending spelled rfl
      rw [List.length_cons] at enough
      cases held : s.pend with
      | cons first pend =>
          -- the byte goes to the escape that is pending
          rw [held] at pending
          generalize front : first :: pend = taken at pending
          cases pending with
          | idle => cases front
          | front piece rest escape n some_ short =>
              have size := piece_size piece
              have length : s.pend.length = n := by
                rw [held, front, List.length_take]
                omega
              have next : s.pend ++ [c] = piece.text.take (n + 1) := by
                have text : piece.text.take n ++ (c :: b ++ later) =
                    piece.text ++ (rest.text ++ [quote]) := by
                  rw [← front, ← held, spelled, chars_text_cons, List.append_assoc]
                have both := congrArg (List.take (n + 1)) text
                have inside : n + 1 ≤ piece.text.length := by omega
                rw [List.take_append_of_le_length inside] at both
                rw [held, front, ← both, List.take_append, List.length_take,
                  Nat.min_eq_left (by omega), List.take_take, Nat.min_eq_right (by omega),
                  show n + 1 - n = 1 by omega]
                rfl
              have remains : piece.text.take (n + 1) ++ (b ++ later) =
                  Chars.text (piece :: rest) ++ [quote] := by
                rw [← next, List.append_assoc]
                exact spelled
              rw [finalLoop, if_neg (by simp), if_pos (by rw [held]; exact List.cons_ne_nil _ _),
                if_pos (by rw [length, pendSize]; omega)]
              dsimp only
              rw [next]
              by_cases whole : n + 1 = piece.text.length
              · rw [whole, List.take_length] at remains ⊢
                have used : piece.text.length ≠ 0 := by omega
                rw [unescape_whole escape]
                dsimp only
                rw [if_neg used, if_pos (escape_decodes escape), tell_content accepts,
                  if_neg (by
                    rintro ⟨tail, _⟩
                    apply tail
                    exact List.drop_length)]
                refine After.earlier toolStreamFeed (induction (by omega)
                  (.idle rest) ?_) ⟨_, _, rfl⟩ ?_
                · rw [chars_text_cons, List.append_assoc] at remains
                  exact List.append_cancel_left remains
                · change told ((s.log ++ [Event.content piece.decode])) ++ rest.decode = _
                  rw [chars_decode_cons, ← List.append_assoc]
                  exact congrArg (· ++ rest.decode) (told_tell s piece.decode)
              · rw [unescape_part escape (by omega) (by omega)]
                dsimp only
                rw [if_pos rfl]
                exact After.earlier toolStreamFeed (induction (by omega)
                  (.front piece rest escape (n + 1) (by omega) (by omega)) remains)
                  ⟨_, _, rfl⟩ rfl
      | nil =>
          rw [held, List.nil_append] at spelled
          rw [finalLoop, if_neg (by simp), if_neg (by rw [held]; simp)]
          rcases chars with _ | ⟨piece, rest⟩
          · -- the closing quote
            injection spelled with closing nothing
            have ended : b = [] ∧ later = [] := List.append_eq_nil_iff.mp nothing
            rw [if_pos closing, ended.1]
            have state : s = { s with pend := [], log := s.log } := by
              rw [← held]
            rw [state]
            exact .closed s.log ended.2 (List.append_nil _).symm
          · by_cases escape : piece.Escape
            · -- an escape begins
              obtain ⟨tail, text, more⟩ := escape_text escape
              have first : c = backslash := by
                rw [chars_text_cons, text] at spelled
                injection spelled
              have front : piece.text.take 1 = [c] := by
                rw [text, first]
                rfl
              have pendingNext : Pending [c] (piece :: rest) := by
                rw [← front]
                refine .front piece rest escape 1 (by omega) ?_
                rw [text, List.length_cons]
                have positive := List.length_pos_iff.mpr more
                omega
              rw [if_neg (by rw [first]; decide), if_pos first]
              exact After.earlier toolStreamFeed (induction (by omega)
                pendingNext spelled) ⟨_, _, rfl⟩ rfl
            · cases piece with
              | raw x stands =>
                  -- a run of plain bytes
                  have first : c = x := by
                    injection spelled
                  have plain : plainByte c = true := by
                    rw [first]
                    simp [plainByte, stands.2]
                  obtain ⟨front, back, split, text, decode, remains⟩ := plain_run spelled
                  have other : c ≠ quote ∧ c ≠ backslash := by
                    rw [first]
                    exact stands.2
                  rw [if_neg other.1, if_neg other.2, tell_content accepts]
                  have shorter : ((c :: b).dropWhile plainByte).length ≤ rounds := by
                    rw [List.dropWhile_cons_of_pos plain]
                    exact Nat.le_trans (List.dropWhile_sublist _).length_le (by omega)
                  have idle : Pending s.pend back := by
                    rw [held]
                    exact .idle back
                  refine After.earlier toolStreamFeed (induction shorter idle ?_)
                    ⟨s.pend, _, rfl⟩ ?_
                  · change s.pend ++ _ = _
                    rw [held]
                    exact remains
                  · rw [told_tell, split, chars_decode_append, decode, text, List.append_assoc]
              | _ => exact absurd trivial escape

section Chunks

variable {sink : Sink} (toolStreamFeed : ToolStream → Bytes → ToolStream × ℤ)

/-- Chunks with nothing in them change nothing. -/
theorem feed_nothing {chunks : List Bytes} (empty : chunks.flatten = []) (s : ToolStream) :
    feedChunks sink toolStreamFeed s chunks = (s, 0) := by
  induction chunks with
  | nil => rfl
  | cons b chunks induction =>
      have parts := List.append_eq_nil_iff.mp empty
      have first : tsFinalStr sink toolStreamFeed s b = (s, 0) := by
        rw [parts.1]
        rfl
      unfold feedChunks at induction ⊢
      rw [List.foldl_cons, if_neg (by simp), first]
      exact induction parts.2

/-- The string is not over while an escape is pending. -/
theorem pending_open {pend : Bytes} {chars : Chars} (pending : Pending pend chars) :
    pend ≠ chars.text ++ [quote] := by
  intro same
  cases pending with
  | idle =>
      have length := congrArg List.length same
      simp at length
  | front piece rest escape n some_ short =>
      have length := congrArg List.length same
      rw [List.length_take, chars_text_cons, List.length_append, List.length_append] at length
      omega

theorem feed_chunks_closed (accepts : sink.Accepts) {chunks : List Bytes} {s : ToolStream}
    {chars : Chars} (pending : Pending s.pend chars)
    (spelled : s.pend ++ chunks.flatten = chars.text ++ [quote]) :
    ∃ log, feedChunks sink toolStreamFeed s chunks =
        tsEntryClose sink toolStreamFeed { s with pend := [], log := log } [] 0 ∧
      told log = told s.log ++ chars.decode := by
  induction chunks generalizing s chars with
  | nil =>
      rw [List.flatten_nil, List.append_nil] at spelled
      exact absurd spelled (pending_open pending)
  | cons b chunks induction =>
      have after : After toolStreamFeed sink s chars chunks.flatten
          (tsFinalStr sink toolStreamFeed s b) :=
        final_loop_after accepts toolStreamFeed _ (Nat.le_refl b.length) pending spelled
      have step : feedChunks sink toolStreamFeed s (b :: chunks) =
          chunks.foldl (fun r b => if r.2 ≠ 0 then r else tsFinalStr sink toolStreamFeed r.1 b)
            (tsFinalStr sink toolStreamFeed s b) := rfl
      rw [step]
      generalize tsFinalStr sink toolStreamFeed s b = r at after
      cases after with
      | inside pend log rest pending' spelled' handed =>
          obtain ⟨log', closed, told'⟩ :=
            induction (s := { s with pend := pend, log := log }) pending' spelled'
          exact ⟨log', closed, told'.trans handed⟩
      | closed log ended handed =>
          have zero := (entry_close accepts toolStreamFeed { s with pend := [] } log).1
          refine ⟨log, ?_, handed⟩
          generalize tsEntryClose sink toolStreamFeed { s with pend := [], log := log } [] 0 = r at zero ⊢
          have whole : r = (r.1, 0) := Prod.ext rfl zero
          rw [whole]
          exact @feed_nothing sink toolStreamFeed chunks ended r.1

end Chunks

/-- However a string that `parse_string` reads is cut, its text is handed on and the entry is
closed as it is at once. -/
theorem final_str_any_split (sink : Sink) (accepts : sink.Accepts)
    (toolStreamFeed : ToolStream → Bytes → ToolStream × ℤ) (s : ToolStream) (idle : s.pend = [])
    (d t : Bytes) (read : parseString (quote :: (d ++ [quote])) = some (t, []))
    (chunks : List Bytes) (split : chunks.flatten = d ++ [quote]) :
    told (feedChunks sink toolStreamFeed s chunks).1.log = told s.log ++ t ∧
      (feedChunks sink toolStreamFeed s chunks).1.still =
        (tsEntryClose sink toolStreamFeed s [] 0).1.still ∧
      (feedChunks sink toolStreamFeed s chunks).2 = 0 := by
  obtain ⟨chars, text, decode, _⟩ := parse_string_inv read
  injection text with _ body
  have spelled : s.pend ++ chunks.flatten = chars.text ++ [quote] := by
    rw [idle, split, body]
    rfl
  have pending : Pending s.pend chars := by
    rw [idle]
    exact .idle chars
  obtain ⟨log, closed, handed⟩ := feed_chunks_closed toolStreamFeed accepts pending spelled
  have same : { s with pend := [] } = s := by
    rw [← idle]
  obtain ⟨zero, state, heard⟩ := entry_close accepts toolStreamFeed { s with pend := [] } log
  rw [closed, decode]
  refine ⟨heard.trans handed, ?_, zero⟩
  rw [state, same]

/-- An escape cut in two, and a closing quote on its own. -/
theorem final_str_cut_escape :
    let sink : Sink := ⟨true, true, fun _ => 0⟩
    let s : ToolStream := ⟨true, .finalStr, none, false, 0, false, false, false, [], []⟩
    let feed : ToolStream → Bytes → ToolStream × ℤ := fun s _ => (s, 0)
    told (feedChunks sink feed s [[0x61, backslash], [letterN], [quote]]).1.log = [0x61, 0x0a] ∧
      (feedChunks sink feed s [[0x61, backslash], [letterN], [quote]]).1.still =
        (tsEntryClose sink feed s [] 0).1.still ∧
      (feedChunks sink feed s [[0x61, backslash], [letterN], [quote]]).2 = 0 :=
  final_str_any_split ⟨true, true, fun _ => 0⟩ ⟨rfl, fun _ => rfl⟩ (fun s _ => (s, 0))
    ⟨true, .finalStr, none, false, 0, false, false, false, [], []⟩ rfl
    [0x61, backslash, letterN] [0x61, 0x0a] (by decide) [[0x61, backslash], [letterN], [quote]] rfl

end Accepting

end GridcoreRunner.Demux
