import GridcoreRunner.Overlap
import GridcoreRunner.Schema.Validator

/-!
# Raw text

A raw value ends with the first occurrence of its sentinel. While the sentinel has not
been seen, the frame holds how much of it the text may have begun, and has counted the
rest as content. Blanks in front of the value are skipped, as in front of any other, and
at the root they are refused.
-/

namespace GridcoreRunner.Schema

set_option autoImplicit false

open GridcoreRunner.Json
open GridcoreRunner.Overlap

/-- The value is read, has ended in front of these bytes, or has been refused. -/
inductive RawRead
  | reading
  | closed (rest : Bytes)
  | refused
deriving DecidableEq

/-- The bytes that a frame with so many below it gets. -/
def readRaw (below : Nat) (v : Sval) : Bytes → RawRead
  | [] => .reading
  | c :: rest =>
      match feedByte v c with
      | none => .refused
      | some (v, _) => if v.stack.length ≤ below then .closed rest else readRaw below v rest

/-- Nowhere in the text has the sentinel ended. -/
def Unseen (sentinel text : Bytes) : Prop := ∀ front, front <+: text → ¬sentinel <:+ front

/-- So many bytes of the text are known not to belong to the sentinel. -/
def Known (sentinel text : Bytes) (count : Nat) : Prop :=
  ∃ kept, Longest sentinel text kept ∧ count + kept = text.length

/-- The text from here on is a value of at most so many bytes up to the first sentinel. -/
def EndsFirst (sentinel : Bytes) (maxItems : Option Nat) (text rest : Bytes) : Prop :=
  ∃ value, text = value ++ sentinel ++ rest ∧
    (∀ front, front <+: value ++ sentinel → front ≠ value ++ sentinel → ¬sentinel <:+ front) ∧
      ∀ bound ∈ maxItems, value.length ≤ bound

/-- Before any sentinel more bytes are known to be content than the value may have. -/
def Outgrows (sentinel : Bytes) (maxItems : Option Nat) (text : Bytes) : Prop :=
  ∃ front count, front <+: text ∧ Unseen sentinel front ∧ Known sentinel front count ∧
    ∃ bound ∈ maxItems, bound < count

/-- The reader ends the value, or refuses it, just where the text does. -/
def RawReads (sentinel : Bytes) (maxItems : Option Nat) (read : RawRead) (text : Bytes) : Prop :=
  (∀ rest, read = .closed rest ↔ EndsFirst sentinel maxItems text rest) ∧
    (read = .refused ↔ Outgrows sentinel maxItems text)

/-! ## The fallback -/

/-- The fallback finds the longest beginning of the sentinel that ends what was seen. -/
theorem raw_fallback_longest {sentinel text : Bytes} {pos : Nat}
    (longest : Longest sentinel text pos) {c : UInt8} (breaks : sentinel[pos]? ≠ some c) :
    Longest sentinel (text ++ [c]) (rawFallback sentinel pos c) ∧ rawFallback sentinel pos c ≤ pos := by
  have asks : ∀ k ≤ pos, ((k == 0 || sentinel[k - 1]? == some c &&
      sentinel.take (k - 1) == (sentinel.drop (pos + 1 - k)).take (k - 1)) = true ↔
        Ends sentinel (sentinel.take pos ++ [c]) k) := by
    intro k short
    cases k with
    | zero => exact ⟨fun _ => ends_zero _ _, fun _ => rfl⟩
    | succ k =>
        have within := longest.1.1
        rw [ends_snoc]
        unfold Ends
        have last : (sentinel.drop (pos - k)).take k = (sentinel.take pos).drop (pos - k) := by
          rw [List.drop_take]
          congr 1
          omega
        rw [List.suffix_iff_eq_drop, List.length_take, List.length_take, Nat.min_eq_left within,
          Nat.min_eq_left (by omega), ← last]
        simp only [Nat.add_sub_cancel, Nat.add_eq_zero_iff, one_ne_zero, and_false, beq_iff_eq,
          Bool.or_eq_true, Bool.and_eq_true, false_or, Nat.add_sub_add_right]
        exact ⟨fun both => ⟨⟨by omega, both.2⟩, both.1⟩, fun both => ⟨both.2, both.1.2⟩⟩
  have all : ∀ k, Ends sentinel (sentinel.take pos ++ [c]) k → k ≤ pos := by
    rintro k ⟨bound, ends⟩
    have fewer := ends.length_le
    rw [List.length_append, List.length_take, List.length_take, List.length_singleton] at fewer
    by_contra more
    have whole : k = pos + 1 := by omega
    rw [whole] at bound ends
    exact breaks (ends_snoc.mp ⟨bound, ends⟩).2
  have search := find_down (fun k => k == 0 || sentinel[k - 1]? == some c &&
    sentinel.take (k - 1) == (sentinel.drop (pos + 1 - k)).take (k - 1)) (pos + 1)
  unfold rawFallback
  split at search
  · next k found =>
      rw [found, Option.getD_some]
      refine ⟨⟨?_, ?_⟩, by omega⟩
      · rw [ends_remembered longest]
        exact (asks k (by omega)).mp search.2.1
      · intro other ends
        rw [ends_remembered longest] at ends
        by_contra more
        have short := all other ends
        have here := (asks other short).mpr ends
        rw [search.2.2 other (by omega) (by omega)] at here
        cases here
  · next found =>
      have none' := search 0 (Nat.succ_pos pos)
      cases none'

/-! ## What the frame holds -/

/-- The frame behind these bytes of its value, with no sentinel in them. -/
structure RawFrame (sentinel : Bytes) (maxItems : Option Nat) (text : Bytes) (f : Sframe) : Prop where
  node : f.node = .raw sentinel maxItems
  longest : Longest sentinel text f.litPos
  counted : f.idx + f.litPos = text.length
  unseen : Unseen sentinel text
  bounded : ∀ bound ∈ maxItems, f.idx ≤ bound

theorem unseen_snoc {sentinel text : Bytes} {c : UInt8} :
    Unseen sentinel (text ++ [c]) ↔ Unseen sentinel text ∧ ¬sentinel <:+ text ++ [c] := by
  unfold Unseen
  constructor
  · intro unseen
    exact ⟨fun front before => unseen front (before.trans (List.prefix_append _ _)),
      unseen _ (List.prefix_refl _)⟩
  · rintro ⟨unseen, last⟩ front before
    rcases List.prefix_concat_iff.mp before with whole | earlier
    · rw [whole]
      exact last
    · exact unseen front earlier

/-- What a frame does with one more byte of its value. -/
theorem raw_step {sentinel : Bytes} {maxItems : Option Nat} {text : Bytes} {f : Sframe}
    (frame : RawFrame sentinel maxItems text f) (v : Sval) (below : List Sframe) (c : UInt8) :
    (sentinel <:+ text ++ [c] ∧ text.length + 1 = f.idx + sentinel.length ∧
        feedRaw sentinel maxItems v f below c = leave v f below false) ∨
      (Unseen sentinel (text ++ [c]) ∧ ∃ count, Known sentinel (text ++ [c]) count ∧
        ((∃ bound ∈ maxItems, bound < count) ∧ feedRaw sentinel maxItems v f below c = none ∨
          ∃ g, RawFrame sentinel maxItems (text ++ [c]) g ∧ g.phase = f.phase ∧
            feedRaw sentinel maxItems v f below c = stay v g below)) := by
  have counted := frame.counted
  have longer : (text ++ [c]).length = text.length + 1 := List.length_append
  unfold feedRaw
  by_cases spelled : sentinel[f.litPos]? = some c
  · rw [if_pos spelled]
    have next : Longest sentinel (text ++ [c]) (f.litPos + 1) := by
      refine ⟨ends_snoc.mpr ⟨frame.longest.1, spelled⟩, ?_⟩
      rintro other ends
      cases other with
      | zero => exact Nat.zero_le _
      | succ other => exact Nat.succ_le_succ (frame.longest.2 other (ends_snoc.mp ends).1)
    by_cases whole : f.litPos + 1 = sentinel.length
    · rw [if_pos whole]
      exact Or.inl ⟨(found_iff next).mp whole, by omega, rfl⟩
    · rw [if_neg whole]
      have unseen : Unseen sentinel (text ++ [c]) :=
        unseen_snoc.mpr ⟨frame.unseen, fun ends => whole ((found_iff next).mpr ends)⟩
      refine Or.inr ⟨unseen, f.idx, ⟨f.litPos + 1, next, by omega⟩,
        Or.inr ⟨{ f with litPos := f.litPos + 1 }, ?_, rfl, rfl⟩⟩
      refine ⟨frame.node, next, ?_, unseen, frame.bounded⟩
      show f.idx + (f.litPos + 1) = _
      omega
  · rw [if_neg spelled]
    dsimp only
    rcases raw_fallback_longest frame.longest spelled with ⟨next, short⟩
    generalize rawFallback sentinel f.litPos c = kept at next short
    have unseen : Unseen sentinel (text ++ [c]) := by
      refine unseen_snoc.mpr ⟨frame.unseen, fun ends => ?_⟩
      have whole := (found_iff next).mpr ends
      have within := frame.longest.1.1
      have full : f.litPos = sentinel.length := by omega
      exact frame.unseen text (List.prefix_refl _) ((found_iff frame.longest).mp full)
    refine Or.inr ⟨unseen, f.idx + (f.litPos + 1 - kept), ⟨kept, next, by omega⟩, ?_⟩
    by_cases outgrown : (maxItems.any fun bound =>
        decide (bound < f.idx + (f.litPos + 1 - kept))) = true
    · rw [if_pos outgrown]
      rcases (Option.any_eq_true _ _).mp outgrown with ⟨bound, some_, beyond⟩
      exact Or.inl ⟨⟨bound, some_, of_decide_eq_true beyond⟩, rfl⟩
    · rw [if_neg outgrown]
      refine Or.inr ⟨{ f with idx := f.idx + (f.litPos + 1 - kept), litPos := kept }, ?_, rfl, rfl⟩
      refine ⟨frame.node, next, ?_, unseen, ?_⟩
      · show f.idx + (f.litPos + 1 - kept) + kept = _
        omega
      · intro bound some_
        by_contra beyond
        apply outgrown
        rw [some_]
        exact decide_eq_true (not_le.mp beyond)

/-- What is known not to belong to the sentinel stays known. -/
theorem known_mono {sentinel front text : Bytes} {one two : Nat} (before : front <+: text)
    (here : Known sentinel front one) (there : Known sentinel text two) : one ≤ two := by
  rcases before with ⟨more, whole⟩
  rcases here with ⟨kept, longest, sum⟩
  rcases there with ⟨other, longest', sum'⟩
  have size := congrArg List.length whole
  rw [List.length_append] at size
  rw [← whole] at longest'
  have within := longest.2 _ (ends_append longest'.1)
  omega

/-- A text without the sentinel has neither closed a value nor, in its bounds, outgrown them. -/
theorem unseen_reading {sentinel : Bytes} {maxItems : Option Nat} {text : Bytes} {f : Sframe}
    (frame : RawFrame sentinel maxItems text f) :
    (∀ rest, ¬EndsFirst sentinel maxItems text rest) ∧ ¬Outgrows sentinel maxItems text := by
  constructor
  · rintro rest ⟨value, whole, _⟩
    rw [whole] at frame
    exact frame.unseen (value ++ sentinel) (List.prefix_append _ _) (List.suffix_append _ _)
  · rintro ⟨front, count, before, _, known, bound, some_, beyond⟩
    have grown := known_mono before known ⟨f.litPos, frame.longest, frame.counted⟩
    have within := frame.bounded bound some_
    omega

/-- The sentinel ends here for the first time. -/
theorem closes_here {sentinel : Bytes} {maxItems : Option Nat} {text : Bytes} {f : Sframe}
    (frame : RawFrame sentinel maxItems text f) {c : UInt8} {more : Bytes}
    (ends : sentinel <:+ text ++ [c]) (size : text.length + 1 = f.idx + sentinel.length) :
    (∀ rest, EndsFirst sentinel maxItems (text ++ c :: more) rest ↔ rest = more) ∧
      ¬Outgrows sentinel maxItems (text ++ c :: more) := by
  have split : text ++ c :: more = text ++ [c] ++ more := List.append_cons _ _ _
  rcases ends with ⟨value, whole⟩
  have first : ∀ front, front <+: value ++ sentinel → front ≠ value ++ sentinel →
      ¬sentinel <:+ front := by
    intro front before shorter
    rw [whole] at before shorter
    exact frame.unseen front ((List.prefix_concat_iff.mp before).resolve_left shorter)
  have length := congrArg List.length whole
  rw [List.length_append, List.length_append, List.length_singleton] at length
  constructor
  · intro rest
    rw [split, ← whole]
    constructor
    · rintro ⟨other, same, first', _⟩
      have here : value ++ sentinel <+: other ++ sentinel ++ rest := by
        rw [← same]
        exact List.prefix_append _ _
      have there : other ++ sentinel <+: other ++ sentinel ++ rest := List.prefix_append _ _
      have equal : value ++ sentinel = other ++ sentinel := by
        rcases List.prefix_or_prefix_of_prefix here there with before | before
        · by_contra shorter
          exact first' _ before shorter (List.suffix_append _ _)
        · by_contra shorter
          exact first _ before (fun same => shorter same.symm) (List.suffix_append _ _)
      rw [equal] at same
      exact (List.append_cancel_left same).symm
    · intro same
      rw [same]
      refine ⟨value, rfl, first, ?_⟩
      intro bound some_
      have within := frame.bounded bound some_
      omega
  · rintro ⟨front, count, before, unseen, known, bound, some_, beyond⟩
    have earlier : front <+: text := by
      rw [split] at before
      rcases List.prefix_or_prefix_of_prefix before (List.prefix_append _ _) with inside | past
      · rcases List.prefix_concat_iff.mp inside with all | earlier
        · rw [all] at unseen
          exact absurd ⟨value, whole⟩ (unseen _ (List.prefix_refl _))
        · exact earlier
      · exact absurd ⟨value, whole⟩ (unseen _ past)
    have grown := known_mono earlier known ⟨f.litPos, frame.longest, frame.counted⟩
    have within := frame.bounded bound some_
    omega

/-- More is known to be content than the value may have. -/
theorem outgrows_here {sentinel : Bytes} {maxItems : Option Nat} {text more : Bytes} {count : Nat}
    (unseen : Unseen sentinel text) (known : Known sentinel text count)
    (beyond : ∃ bound ∈ maxItems, bound < count) :
    (∀ rest, ¬EndsFirst sentinel maxItems (text ++ more) rest) ∧
      Outgrows sentinel maxItems (text ++ more) := by
  refine ⟨?_, text, count, List.prefix_append _ _, unseen, known, beyond⟩
  rintro rest ⟨value, same, first, within⟩
  rcases beyond with ⟨bound, some_, less⟩
  have before : text <+: value ++ sentinel := by
    have here : text <+: value ++ sentinel ++ rest := by
      rw [← same]
      exact List.prefix_append _ _
    rcases List.prefix_or_prefix_of_prefix here (List.prefix_append _ _) with inside | past
    · exact inside
    · exact absurd (List.suffix_append _ _) (unseen _ past)
  have all : Known sentinel (value ++ sentinel) value.length := by
    refine ⟨sentinel.length, ⟨⟨Nat.le_refl _, ?_⟩, fun other ends => ends.1⟩,
      List.length_append.symm⟩
    rw [List.take_length]
    exact List.suffix_append _ _
  have grown := known_mono before known all
  have fits := within bound some_
  omega

/-! ## The run -/

theorem settle_length (lastEnum : Option Nat) (child : Snode) (below : List Sframe) :
    (settle lastEnum child below).1.length ≤ below.length := by
  fun_induction settle lastEnum child below <;> (simp_all; try omega)

theorem feed_byte_raw {sentinel : Bytes} {maxItems : Option Nat} {v : Sval} {f : Sframe}
    {below : List Sframe} (running : v.done = false) (stack : v.stack = f :: below)
    (node : f.node = .raw sentinel maxItems) (phase : f.phase = .raw) (c : UInt8) :
    feedByte v c = feedRaw sentinel maxItems v f below c := by
  unfold feedByte
  rw [running, if_neg Bool.false_ne_true, stack]
  dsimp only
  rw [phase, node]

/-- The rest of a value behind bytes without the sentinel. -/
theorem raw_run {sentinel : Bytes} {maxItems : Option Nat} {below : List Sframe} (more : Bytes)
    {text : Bytes} {v : Sval} {f : Sframe} (running : v.done = false) (stack : v.stack = f :: below)
    (frame : RawFrame sentinel maxItems text f) (phase : f.phase = .raw) :
    RawReads sentinel maxItems (readRaw below.length v more) (text ++ more) := by
  induction more generalizing text v f with
  | nil =>
      rw [List.append_nil]
      have open_ := unseen_reading frame
      constructor
      · intro rest
        exact ⟨(fun never => by cases never), fun ends => absurd ends (open_.1 rest)⟩
      · exact ⟨(fun never => by cases never), fun outgrown => absurd outgrown open_.2⟩
  | cons c more induction =>
      unfold RawReads readRaw
      rw [feed_byte_raw running stack frame.node phase]
      have split : text ++ c :: more = text ++ [c] ++ more := List.append_cons _ _ _
      rcases raw_step frame v below c with ⟨ends, size, step⟩ | ⟨unseen, count, known, rest⟩
      · rw [step]
        have here := @closes_here _ _ _ _ frame c more ends size
        have popped : (frameDone v f below).stack.length ≤ below.length := settle_length _ _ _
        unfold leave
        dsimp only
        rw [if_pos popped]
        constructor
        · intro rest
          rw [here.1 rest, RawRead.closed.injEq]
          exact eq_comm
        · exact ⟨(fun never => by cases never), fun outgrown => absurd outgrown here.2⟩
      · rcases rest with ⟨beyond, step⟩ | ⟨g, next, same, step⟩
        · rw [step, split]
          have here := @outgrows_here _ _ _ more _ unseen known beyond
          constructor
          · intro rest
            exact ⟨(fun never => by cases never), fun ends => absurd ends (here.1 rest)⟩
          · exact ⟨fun _ => here.2, fun _ => rfl⟩
        · rw [step, split]
          unfold stay
          dsimp only
          rw [if_neg (show ¬(v.setTop g below).stack.length ≤ below.length from Nat.not_succ_le_self _)]
          exact induction running rfl next (same.trans phase)

/-! ## The value from its first byte -/

/-- The frame of a value behind its blanks. -/
theorem raw_begins {sentinel : Bytes} (some_ : sentinel ≠ []) (maxItems : Option Nat) :
    RawFrame sentinel maxItems []
      { Sframe.start (.raw sentinel maxItems) with phase := .raw, litPos := 0 } := by
  refine ⟨rfl, longest_nil _, rfl, ?_, fun bound _ => Nat.zero_le _⟩
  intro front before ends
  rw [List.prefix_nil.mp before, List.suffix_nil] at ends
  exact some_ ends

theorem feed_byte_first {sentinel : Bytes} {maxItems : Option Nat} {v : Sval} {below : List Sframe}
    (running : v.done = false) (top : v.stack = .start (.raw sentinel maxItems) :: below) (c : UInt8) :
    feedByte v c =
      if isWs c then leadingWs v (.start (.raw sentinel maxItems)) below
      else feedByte (v.setTop { Sframe.start (.raw sentinel maxItems) with
        phase := .raw, litPos := 0 } below) c := by
  have next := @feed_byte_raw sentinel maxItems (v.setTop { Sframe.start (.raw sentinel maxItems) with
    phase := .raw, litPos := 0 } below) _ below running rfl rfl rfl c
  rw [next]
  unfold feedByte
  rw [running, if_neg Bool.false_ne_true, top]
  show enter c (.raw sentinel maxItems) v (.start (.raw sentinel maxItems)) below = _
  unfold enter
  rfl

/-- A raw value ends with its first sentinel, and is refused as soon as more bytes than it
may have are known to stand in front of it. Blanks in front of it do not count, and at
the root they are refused. -/
theorem raw_text_reads {sentinel : Bytes} (some_ : sentinel ≠ []) (maxItems : Option Nat) {v : Sval}
    {below : List Sframe} (running : v.done = false)
    (top : v.stack = .start (.raw sentinel maxItems) :: below) (text : Bytes) :
    if below = [] ∧ (text.head?.any isWs) = true then readRaw below.length v text = .refused
    else RawReads sentinel maxItems (readRaw below.length v text) (text.dropWhile isWs) := by
  have run := @raw_run sentinel maxItems below (text.dropWhile isWs) [] (v.setTop
    { Sframe.start (.raw sentinel maxItems) with phase := .raw, litPos := 0 } below) _ running rfl
    (raw_begins some_ maxItems) rfl
  split
  · next blank =>
      cases text with
      | nil => cases blank.2
      | cons c rest =>
          have first : isWs c = true := blank.2
          unfold readRaw
          rw [feed_byte_first running top, if_pos first, blank.1]
          rfl
  · next placed =>
      have same : readRaw below.length v text = readRaw below.length (v.setTop
          { Sframe.start (.raw sentinel maxItems) with phase := .raw, litPos := 0 } below)
          (text.dropWhile isWs) := by
        clear run
        induction text with
        | nil => rfl
        | cons c rest induction =>
            by_cases blank : isWs c = true
            · have inner : below ≠ [] := fun root => placed ⟨root, blank⟩
              have kept : v.setTop (.start (.raw sentinel maxItems)) below = v := by
                rw [Sval.setTop, ← top]
              rw [List.dropWhile_cons_of_pos blank, ← induction fun root => inner root.1, readRaw,
                feed_byte_first running top, if_pos blank, leadingWs,
                if_neg (by rw [List.isEmpty_iff]; exact inner), stay, kept]
              dsimp only
              rw [if_neg]
              rw [top]
              exact Nat.not_succ_le_self _
            · rw [List.dropWhile_cons_of_neg blank, readRaw, feed_byte_first running top, if_neg blank]
              rfl
      rw [same]
      exact run

/-- A sentinel that overlaps itself ends where it first stands. -/
theorem overlapping_sentinel_reads :
    RawReads [97, 97, 98] none (readRaw 0 (svalInit (.raw [97, 97, 98] none)) [97, 97, 97, 98])
      [97, 97, 97, 98] := by
  have reads := @raw_text_reads [97, 97, 98] (List.cons_ne_nil _ _) none
    (svalInit (.raw [97, 97, 98] none)) [] rfl rfl [97, 97, 97, 98]
  rw [if_neg (by decide)] at reads
  exact reads

/-- Behind two blanks, a byte and the sentinel: a value of three bytes where one is allowed. -/
theorem blanks_uncounted :
    ¬RawReads [60] (some 1) (readRaw 1 { svalInit (.raw [60] (some 1)) with
        stack := [.start (.raw [60] (some 1)), .start (.seq [] false)] } [32, 32, 97, 60])
      [32, 32, 97, 60] := by
  rintro ⟨closes, _⟩
  rcases (closes []).mp (by decide) with ⟨value, whole, _, within⟩
  have short := within 1 rfl
  have size := congrArg List.length whole
  rw [List.append_nil, List.length_append] at size
  have four : [32, 32, 97, 60].length = 4 := rfl
  have one : [(60 : UInt8)].length = 1 := rfl
  omega

end GridcoreRunner.Schema
