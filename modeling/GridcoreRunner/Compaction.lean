import GridcoreRunner.Outcome
import GridcoreRunner.Text

/-!
# Cutting blocks out of a text in place

A scanner walks over a text with a read cursor and a write cursor behind it. What it keeps is
moved down to the write cursor, and a block is passed over. It looks for a marker, and where
no block begins at the marker it keeps some of the marker's bytes and goes on behind them.
What it leaves is the text with every block cut out that the first block in front of it does
not reach into.
-/

namespace GridcoreRunner.Compaction

set_option autoImplicit false

variable {α ι β : Type}

/-! ## Markers -/

/-- The first entry of the marker stands nowhere else in it. -/
def Unbordered (marker : List α) : Prop := ∀ a ∈ marker.tail, marker.head? ≠ some a

instance [DecidableEq α] (marker : List α) : Decidable (Unbordered marker) :=
  inferInstanceAs (Decidable (∀ a ∈ marker.tail, marker.head? ≠ some a))

/-- A marker behind a text without one is the first. -/
theorem Unbordered.first_hit [DecidableEq α] {marker front : List α}
    (unbordered : Unbordered marker) (some_ : marker ≠ []) (free : ¬marker <:+: front)
    (back : List α) :
    Text.firstHit [marker] (front ++ (marker ++ back)) = some (front.length, marker) := by
  obtain ⟨m, tail, shape⟩ := List.exists_cons_of_ne_nil some_
  induction front with
  | nil =>
      have here : Text.hitAt [marker] (marker ++ back) = some marker := by
        simp [Text.hitAt]
      rw [List.nil_append, shape, List.cons_append, Text.firstHit, ← List.cons_append, ← shape, here]
      rfl
  | cons a front induction =>
      have nothing : Text.hitAt [marker] (a :: (front ++ (marker ++ back))) = none := by
        apply Text.hit_at_none.mpr
        intro needle member begins
        rw [List.mem_singleton.mp member, ← List.cons_append] at begins
        rcases List.prefix_or_prefix_of_prefix begins (List.prefix_append _ _) with
          inside | ⟨later, same⟩
        · exact free inside.isInfix
        · obtain ⟨more, whole⟩ := begins
          rw [← same, List.append_assoc, List.append_cancel_left_eq] at whole
          cases later with
          | nil =>
              rw [List.append_nil] at same
              exact free (same ▸ List.infix_rfl)
          | cons r later =>
              rw [same, shape, List.cons_append, List.cons_append] at whole
              apply unbordered r
              · rw [← same, List.cons_append, List.tail_cons]
                exact List.mem_append_right front List.mem_cons_self
              · rw [shape, List.head?_cons, (List.cons.inj whole).1]
      rw [List.cons_append, Text.firstHit, nothing, induction]
      · rfl
      · intro inside
        exact free (inside.trans (List.suffix_cons a front).isInfix)

/-- The first marker splits the text, and stands nowhere in front of where it was found. -/
theorem first_hit_marker [DecidableEq α] {marker text found : List α} {index : Nat}
    (some_ : marker ≠ []) (hit : Text.firstHit [marker] text = some (index, found)) :
    ¬marker <:+: text.take index ∧
      text = text.take index ++ (marker ++ text.drop (index + marker.length)) := by
  obtain ⟨member, back, split⟩ := Text.first_hit_split hit
  rw [List.mem_singleton.mp member, List.append_assoc] at split
  have bound := (Text.first_hit_some hit).1
  have size : (text.take index).length = index := by
    rw [List.length_take]
    omega
  have rest : back = text.drop (index + marker.length) := by
    conv_rhs => rw [split, ← List.append_assoc]
    rw [List.drop_left' (by rw [List.length_append, size])]
  refine ⟨?_, rest ▸ split⟩
  rintro ⟨front, more, inside⟩
  have room := congrArg List.length inside
  have long := List.length_pos_iff.mpr some_
  rw [List.length_append, List.length_append, size] at room
  have before := Text.first_hit_first hit front.length (by omega)
  apply Text.hit_at_none.mp before marker (List.mem_singleton_self _)
  rw [split, ← inside, List.append_assoc, List.append_assoc, List.drop_left]
  exact List.prefix_append _ _

/-! ## Two cursors on one text -/

structure Tape (α : Type) where
  cells : List α
  write : Nat
  read : Nat

def memmove (cells : List α) (dest src n : Nat) : List α :=
  cells.take dest ++ ((cells.drop src).take n ++ cells.drop (dest + n))

namespace Tape

/-- What is still to be read. -/
def rest (tape : Tape α) : List α := tape.cells.drop tape.read

def keep (tape : Tape α) (n : Nat) : Tape α where
  cells := memmove tape.cells tape.write tape.read n
  write := tape.write + n
  read := tape.read + n

def skip (tape : Tape α) (n : Nat) : Tape α := { tape with read := tape.read + n }

/-- The text has been read up to the read cursor, and `kept` was kept of it. -/
structure Holds (source kept : List α) (tape : Tape α) : Prop where
  length : tape.cells.length = source.length
  written : tape.write = kept.length
  order : tape.write ≤ tape.read
  within : tape.read ≤ source.length
  front : tape.cells.take tape.write = kept
  rest : tape.rest = source.drop tape.read
  untouched : tape.write = tape.read → tape.cells = source

variable {source kept : List α} {tape : Tape α}

theorem holds_start (source : List α) : Holds source [] ⟨source, 0, 0⟩ where
  length := rfl
  written := rfl
  order := Nat.le_refl 0
  within := Nat.zero_le _
  front := rfl
  rest := rfl
  untouched := fun _ => rfl

theorem Holds.rest_length (holds : Holds source kept tape) :
    tape.rest.length = source.length - tape.read := by
  rw [holds.rest, List.length_drop]

theorem Holds.keep (holds : Holds source kept tape) {n : Nat}
    (room : n ≤ tape.rest.length) : Holds source (kept ++ tape.rest.take n) (tape.keep n) := by
  have size := holds.length
  have order := holds.order
  have within := holds.within
  rw [holds.rest_length] at room
  have low : (tape.cells.take tape.write).length = tape.write := by
    rw [List.length_take]
    omega
  have moved : ((tape.cells.drop tape.read).take n).length = n := by
    rw [List.length_take, List.length_drop]
    omega
  constructor
  · simp only [Tape.keep, memmove, List.length_append, low, moved, List.length_drop]
    omega
  · simp only [Tape.keep, Tape.rest, List.length_append, moved, holds.written]
  · exact Nat.add_le_add_right order n
  · simp only [Tape.keep]
    omega
  · simp only [Tape.keep, memmove]
    rw [← List.append_assoc, List.take_left' (by rw [List.length_append, low, moved]), holds.front]
    rfl
  · have later : tape.read + n = (tape.write + n) + (tape.read - tape.write) := by omega
    simp only [Tape.rest, Tape.keep, memmove]
    calc (tape.cells.take tape.write ++ ((tape.cells.drop tape.read).take n ++
            tape.cells.drop (tape.write + n))).drop (tape.read + n)
        = (tape.cells.drop (tape.write + n)).drop (tape.read - tape.write) := by
          rw [← List.append_assoc, later, ← List.drop_drop,
            List.drop_left' (by rw [List.length_append, low, moved])]
      _ = (tape.cells.drop tape.read).drop n := by
          rw [List.drop_drop, List.drop_drop, later]
      _ = source.drop (tape.read + n) := by
          have same := holds.rest
          rw [Tape.rest] at same
          rw [same, List.drop_drop]
  · intro level
    have same : tape.write = tape.read := Nat.add_right_cancel level
    simp only [Tape.keep, memmove]
    rw [same, ← List.drop_drop, List.take_append_drop, List.take_append_drop]
    exact holds.untouched same

theorem Holds.skip (holds : Holds source kept tape) {n : Nat} (some_ : 0 < n)
    (room : n ≤ tape.rest.length) : Holds source kept (tape.skip n) := by
  have order := holds.order
  have within := holds.within
  rw [holds.rest_length] at room
  constructor
  · exact holds.length
  · exact holds.written
  · simp only [Tape.skip]
    omega
  · simp only [Tape.skip]
    omega
  · exact holds.front
  · have same := holds.rest
    rw [Tape.rest] at same
    simp only [Tape.rest, Tape.skip]
    rw [← List.drop_drop, same, List.drop_drop]
  · intro level
    simp only [Tape.skip] at level
    omega

end Tape

/-! ## The blocks of a text -/

/-- The text with its blocks cut out: at each position the block that begins there is taken,
or the entry there is kept. -/
inductive Cuts (block : List α → Outcome (ι × Nat)) : List α → List ι → List α → Prop
  | nil : Cuts block [] [] []
  | cut {text : List α} {item : ι} {n : Nat} {items : List ι} {left : List α}
      (found : block text = .done (item, n)) (some_ : 0 < n) (room : n ≤ text.length)
      (later : Cuts block (text.drop n) items left) : Cuts block text (item :: items) left
  | keep {a : α} {text : List α} {items : List ι} {left : List α}
      (nothing : block (a :: text) = .refused) (later : Cuts block text items left) :
      Cuts block (a :: text) items (a :: left)

variable {block : List α → Outcome (ι × Nat)} {text left : List α} {items : List ι}

/-- Without a block the text is left as it is. -/
theorem Cuts.left_whole (cuts : Cuts block text items left) (nothing : items = []) :
    left = text := by
  induction cuts with
  | nil => rfl
  | cut found some_ room later induction => cases nothing
  | keep none_ later induction => rw [induction nothing]

/-- Each block that is cut takes one entry at least. -/
theorem Cuts.length_le (cuts : Cuts block text items left) :
    left.length + items.length ≤ text.length := by
  induction cuts with
  | nil => exact Nat.le_refl 0
  | cut found some_ room later induction =>
      rw [List.length_drop] at induction
      rw [List.length_cons]
      omega
  | keep nothing later induction =>
      rw [List.length_cons, List.length_cons]
      omega

theorem Cuts.unique {items' : List ι} {left' : List α} (cuts : Cuts block text items left)
    (cuts' : Cuts block text items' left') : items' = items ∧ left' = left := by
  induction cuts generalizing items' left' with
  | nil =>
      cases cuts' with
      | nil => exact ⟨rfl, rfl⟩
      | cut found some_ room later => exact absurd some_ (Nat.not_lt.mpr room)
  | cut found some_ room later induction =>
      cases cuts' with
      | nil => exact absurd some_ (Nat.not_lt.mpr room)
      | cut found' _ _ later' =>
          rw [found] at found'
          cases found'
          obtain ⟨rfl, rfl⟩ := induction later'
          exact ⟨rfl, rfl⟩
      | keep nothing later' =>
          rw [found] at nothing
          cases nothing
  | keep nothing later induction =>
      cases cuts' with
      | cut found _ _ _ =>
          rw [found] at nothing
          cases nothing
      | keep _ later' =>
          obtain ⟨rfl, rfl⟩ := induction later'
          exact ⟨rfl, rfl⟩

/-- A block is cut where `rest` is left of the text. -/
inductive CutAt (block : List α → Outcome (ι × Nat)) : List α → List α → Prop
  | here {text : List α} {found : ι × Nat} (begins : block text = .done found) :
      CutAt block text text
  | cut {text rest : List α} {item : ι} {n : Nat} (found : block text = .done (item, n))
      (later : CutAt block (text.drop n) rest) : CutAt block text rest
  | keep {a : α} {text rest : List α} (nothing : block (a :: text) = .refused)
      (later : CutAt block text rest) : CutAt block (a :: text) rest

/-- What holds of every block that is cut holds of the items. -/
theorem Cuts.items_hold (holds : ι → Prop) (cuts : Cuts block text items left)
    (all : ∀ rest, CutAt block text rest → ∀ item n, block rest = .done (item, n) → holds item) :
    ∀ item ∈ items, holds item := by
  induction cuts with
  | nil =>
      intro item never
      cases never
  | cut found some_ room later induction =>
      intro item inside
      rcases List.mem_cons.mp inside with same | other
      · rw [same]
        exact all _ (.here found) _ _ found
      · exact induction (fun rest at_ => all rest (.cut found at_)) item other
  | keep nothing later induction =>
      exact induction fun rest at_ => all rest (.keep nothing at_)

/-- The block that is cut is among the items. -/
theorem CutAt.item_mem {rest : List α} (at_ : CutAt block text rest)
    (cuts : Cuts block text items left) (empty : ∀ found, block [] ≠ .done found) :
    ∃ item n, block rest = .done (item, n) ∧ item ∈ items := by
  induction at_ generalizing items left with
  | here begins =>
      cases cuts with
      | nil => exact absurd begins (empty _)
      | cut found some_ room later => exact ⟨_, _, found, List.mem_cons_self⟩
      | keep nothing later =>
          rw [begins] at nothing
          cases nothing
  | cut found later induction =>
      cases cuts with
      | nil => exact absurd found (empty _)
      | cut found' some_ room later' =>
          rw [found] at found'
          cases found'
          obtain ⟨item, n, begins, inside⟩ := induction later'
          exact ⟨item, n, begins, List.mem_cons_of_mem _ inside⟩
      | keep nothing later' =>
          rw [found] at nothing
          cases nothing
  | keep nothing later induction =>
      cases cuts with
      | cut found some_ room later' =>
          rw [found] at nothing
          cases nothing
      | keep nothing' later' => exact induction later'

/-- A block is cut from an end of the text. -/
theorem CutAt.suffix {rest : List α} (at_ : CutAt block text rest) : rest <:+ text := by
  induction at_ with
  | here begins => exact List.suffix_refl _
  | cut found later induction => exact induction.trans (List.drop_suffix _ _)
  | keep nothing later induction => exact induction.trans (List.suffix_cons _ _)

/-- Where nothing begins among the first entries, they are kept. -/
theorem Cuts.keep_many {n : Nat} (room : n ≤ text.length)
    (nothing : ∀ earlier < n, block (text.drop earlier) = .refused)
    (later : Cuts block (text.drop n) items left) : Cuts block text items (text.take n ++ left) := by
  induction n generalizing text with
  | zero => exact later
  | succ n induction =>
      cases text with
      | nil => exact absurd room (Nat.not_succ_le_zero n)
      | cons a text =>
          apply Cuts.keep (nothing 0 (Nat.succ_pos n))
          apply induction (Nat.le_of_succ_le_succ room)
          · intro earlier before
            exact nothing (earlier + 1) (Nat.succ_lt_succ before)
          · exact later

/-! ## The scanner -/

structure Scanner (α ι β : Type) where
  marker : List α
  /-- How much of a marker is kept where no block begins. -/
  retry : Nat
  block : List α → Outcome (ι × Nat)
  emit : Nat → ι → List β

structure Scan (α β : Type) where
  tape : Tape α
  count : Nat
  out : List β

namespace Scanner

variable (scanner : Scanner α ι β)

/-- One round of the loop; without a marker the rest is kept and the loop is left. -/
def round [DecidableEq α] (scan : Scan α β) : Outcome (Scan α β) :=
  match Text.firstHit [scanner.marker] scan.tape.rest with
  | none => .done { scan with tape := scan.tape.keep (scan.tape.cells.length - scan.tape.read) }
  | some (index, _) =>
      let tape := scan.tape.keep index
      match scanner.block tape.rest with
      | .wrong => .wrong
      | .refused => .done { scan with tape := tape.keep scanner.retry }
      | .done (item, n) =>
          .done {
            tape := tape.skip n
            count := scan.count + 1
            out := scan.out ++ scanner.emit scan.count item }

def loop [DecidableEq α] : Nat → Scan α β → Outcome (Scan α β)
  | 0, _ => .wrong
  | rounds + 1, scan =>
      if scan.tape.read < scan.tape.cells.length then
        (scanner.round scan).bind (loop rounds)
      else .done scan

/-- What is written for blocks that are counted from `count` on. -/
def emitted (scanner : Scanner α ι β) : Nat → List ι → List β
  | _, [] => []
  | count, item :: items => scanner.emit count item ++ scanner.emitted (count + 1) items

/-- The block that begins with a marker here. -/
def blockAt [DecidableEq α] (text : List α) : Outcome (ι × Nat) :=
  if scanner.marker <+: text then scanner.block text else .refused

/-- A block stays inside the text, and no marker begins inside what is kept of one. -/
structure Lawful (scanner : Scanner α ι β) : Prop where
  ends : ∀ text, scanner.block text ≠ .wrong
  room : ∀ {text item n}, scanner.marker <+: text → scanner.block text = .done (item, n) →
    0 < n ∧ n ≤ text.length
  some_ : 0 < scanner.retry
  inside : scanner.retry ≤ scanner.marker.length
  apart : ∀ a ∈ (scanner.marker.take scanner.retry).tail, scanner.marker.head? ≠ some a

variable {scanner}

/-- Nothing is cut from an empty text. -/
theorem Lawful.empty [DecidableEq α] (lawful : scanner.Lawful) (found : ι × Nat) :
    scanner.blockAt [] ≠ .done found := by
  intro begins
  unfold blockAt at begins
  split_ifs at begins with marked
  obtain ⟨some_, room⟩ := lawful.room marked begins
  exact absurd some_ (Nat.not_lt.mpr room)

/-- Nothing begins in front of the first marker. -/
theorem block_at_before_hit [DecidableEq α] {text found : List α} {index : Nat}
    (hit : Text.firstHit [scanner.marker] text = some (index, found)) :
    ∀ earlier < index, scanner.blockAt (text.drop earlier) = .refused := by
  intro earlier before
  apply if_neg
  have free := Text.first_hit_first hit earlier before
  exact Text.hit_at_none.mp free scanner.marker (List.mem_singleton_self _)

/-- Nothing begins in what is kept of a marker, where no block begins at the marker itself. -/
theorem Lawful.inside_marker [DecidableEq α] (lawful : scanner.Lawful) {text : List α}
    (marked : scanner.marker <+: text) (nothing : scanner.blockAt text = .refused) :
    ∀ earlier < scanner.retry, scanner.blockAt (text.drop earlier) = .refused := by
  intro earlier before
  cases earlier with
  | zero => exact nothing
  | succ earlier =>
      apply if_neg
      intro again
      obtain ⟨back, rfl⟩ := marked
      have bound : earlier + 1 < scanner.marker.length := Nat.lt_of_lt_of_le before lawful.inside
      have here : scanner.marker[earlier + 1] ∈ (scanner.marker.take scanner.retry).tail := by
        apply List.mem_iff_getElem.mpr
        refine ⟨earlier, ?_, ?_⟩
        · rw [List.length_tail, List.length_take]
          have inside := lawful.inside
          omega
        · rw [List.getElem_tail, List.getElem_take]
      apply lawful.apart _ here
      obtain ⟨a, marker, shape⟩ : ∃ a marker, scanner.marker = a :: marker := by
        cases same : scanner.marker with
        | nil => simp [same] at bound
        | cons a marker => exact ⟨a, marker, rfl⟩
      have first : ((scanner.marker ++ back).drop (earlier + 1)).head? = some a := by
        obtain ⟨more, same⟩ := again
        rw [← same, shape]
        rfl
      rw [List.head?_drop, List.getElem?_append_left bound, List.getElem?_eq_getElem bound] at first
      rw [first, shape]
      rfl

/-- `final` is what the loop comes to from `scan`, where `kept` was kept. -/
def Reached [DecidableEq α] (scanner : Scanner α ι β) (source : List α) (scan final : Scan α β)
    (kept : List α) : Prop :=
  ∃ items left, Cuts scanner.blockAt (source.drop scan.tape.read) items left ∧
    final.tape.Holds source (kept ++ left) ∧ final.tape.read = source.length ∧
    final.count = scan.count + items.length ∧
    final.out = scan.out ++ scanner.emitted scan.count items

section Rounds

variable [DecidableEq α] {source kept : List α} {scan final : Scan α β}

theorem reached_end (holds : scan.tape.Holds source kept)
    (finished : scan.tape.read = source.length) : Reached scanner source scan scan kept := by
  refine ⟨[], [], ?_, ?_, finished, rfl, (List.append_nil _).symm⟩
  · rw [finished, List.drop_length]
    exact Cuts.nil
  · rw [List.append_nil]
    exact holds

/-- Entries are kept where nothing begins. -/
theorem Reached.keep (holds : scan.tape.Holds source kept) {n : Nat}
    (room : n ≤ scan.tape.rest.length)
    (nothing : ∀ earlier < n, scanner.blockAt (scan.tape.rest.drop earlier) = .refused)
    (later : Reached scanner source { scan with tape := scan.tape.keep n } final
      (kept ++ scan.tape.rest.take n)) : Reached scanner source scan final kept := by
  obtain ⟨items, left, cuts, finally_, finished, counted, written⟩ := later
  refine ⟨items, scan.tape.rest.take n ++ left, ?_, ?_, finished, counted, written⟩
  · rw [← holds.rest]
    apply Cuts.keep_many room nothing
    rw [holds.rest, List.drop_drop]
    exact cuts
  · rw [← List.append_assoc]
    exact finally_

/-- A block is cut. -/
theorem Reached.cut (holds : scan.tape.Holds source kept) {item : ι} {n : Nat}
    (found : scanner.blockAt scan.tape.rest = .done (item, n)) (some_ : 0 < n)
    (room : n ≤ scan.tape.rest.length)
    (later : Reached scanner source
      ⟨scan.tape.skip n, scan.count + 1, scan.out ++ scanner.emit scan.count item⟩ final kept) :
    Reached scanner source scan final kept := by
  obtain ⟨items, left, cuts, finally_, finished, counted, written⟩ := later
  refine ⟨item :: items, left, ?_, finally_, finished, ?_, ?_⟩
  · rw [← holds.rest]
    apply Cuts.cut found some_ room
    rw [holds.rest, List.drop_drop]
    exact cuts
  · rw [counted, List.length_cons]
    simp only
    omega
  · rw [written, List.append_assoc]
    rfl

/-- One round reads on, and what is left to do after it is what was left before. -/
theorem Lawful.round_reached (lawful : scanner.Lawful) (holds : scan.tape.Holds source kept)
    (more : scan.tape.read < source.length) :
    ∃ next kept', scanner.round scan = .done next ∧ next.tape.Holds source kept' ∧
      scan.tape.read < next.tape.read ∧
      ∀ final, Reached scanner source next final kept' → Reached scanner source scan final kept := by
  have whole := holds.rest_length
  unfold round
  cases hit : Text.firstHit [scanner.marker] scan.tape.rest with
  | none =>
      have size : scan.tape.cells.length - scan.tape.read = scan.tape.rest.length := by
        rw [whole, holds.length]
      have nothing : ∀ earlier < scan.tape.rest.length,
          scanner.blockAt (scan.tape.rest.drop earlier) = .refused := by
        intro earlier before
        apply if_neg
        have free := Text.first_hit_none.mp hit earlier before
        exact Text.hit_at_none.mp free scanner.marker (List.mem_singleton_self _)
      rw [size]
      refine ⟨_, _, rfl, holds.keep (Nat.le_refl _), ?_, ?_⟩
      · simp only [Tape.keep, whole]
        omega
      · intro final later
        exact later.keep holds (Nat.le_refl _) nothing
  | some hit_ =>
      obtain ⟨index, found⟩ := hit_
      obtain ⟨bound, here⟩ := Text.first_hit_some hit
      have before := block_at_before_hit hit
      have level := holds.keep (Nat.le_of_lt bound)
      have there : (scan.tape.keep index).rest = scan.tape.rest.drop index := by
        rw [level.rest, holds.rest, List.drop_drop]
        rfl
      have marked : scanner.marker <+: (scan.tape.keep index).rest := by
        obtain ⟨member, begins⟩ := Text.hit_at_some here
        rw [List.mem_singleton.mp member] at begins
        rwa [there]
      have same : scanner.blockAt (scan.tape.keep index).rest =
          scanner.block (scan.tape.keep index).rest := if_pos marked
      simp only
      cases answer : scanner.block (scan.tape.keep index).rest with
      | wrong => exact absurd answer (lawful.ends _)
      | refused =>
          have room := Nat.le_trans lawful.inside marked.length_le
          have inside := lawful.inside_marker marked (same.trans answer)
          refine ⟨_, _, rfl, level.keep room, ?_, ?_⟩
          · have some_ := lawful.some_
            simp only [Tape.keep]
            omega
          · intro final later
            apply Reached.keep holds (Nat.le_of_lt bound) before
            apply Reached.keep _ room inside later
            exact level
      | done block =>
          obtain ⟨item, n⟩ := block
          obtain ⟨some_, room⟩ := lawful.room marked answer
          refine ⟨_, _, rfl, level.skip some_ room, ?_, ?_⟩
          · simp only [Tape.keep, Tape.skip]
            omega
          · intro final later
            apply Reached.keep holds (Nat.le_of_lt bound) before
            apply Reached.cut _ (same.trans answer) some_ room later
            exact level

/-- The loop ends within one round for each entry that is left and a last one. -/
theorem Lawful.loop_reached (lawful : scanner.Lawful) {rounds : Nat}
    (holds : scan.tape.Holds source kept) (enough : source.length - scan.tape.read < rounds) :
    ∃ final, scanner.loop rounds scan = .done final ∧ Reached scanner source scan final kept := by
  induction rounds generalizing scan kept with
  | zero => exact absurd enough (Nat.not_lt_zero _)
  | succ rounds induction =>
      unfold loop
      rw [holds.length]
      by_cases more : scan.tape.read < source.length
      · obtain ⟨next, kept', step, after, on, back⟩ := lawful.round_reached holds more
        rw [if_pos more, step, Outcome.bind_done]
        obtain ⟨final, run, reached⟩ := induction after (by omega)
        exact ⟨final, run, back final reached⟩
      · rw [if_neg more]
        have within := holds.within
        exact ⟨scan, rfl, reached_end holds (by omega)⟩

end Rounds

variable [DecidableEq α]

/-- What a scanner leaves of a text is the text with its blocks cut out, at the front of where
the text was; without a block it is untouched. -/
theorem Lawful.loop_cuts (lawful : scanner.Lawful) (source : List α) (out : List β) :
    ∃ final items left, scanner.loop (source.length + 1) ⟨⟨source, 0, 0⟩, 0, out⟩ = .done final ∧
      Cuts scanner.blockAt source items left ∧ final.tape.cells.take final.tape.write = left ∧
      final.tape.write = left.length ∧ final.tape.cells.length = source.length ∧
      final.count = items.length ∧ final.out = out ++ scanner.emitted 0 items ∧
      (items = [] → final.tape.cells = source) := by
  have start : (⟨⟨source, 0, 0⟩, 0, out⟩ : Scan α β).tape.Holds source [] := Tape.holds_start source
  obtain ⟨final, run, items, left, cuts, holds, finished, counted, written⟩ :=
    lawful.loop_reached start (Nat.lt_succ_of_le (Nat.sub_le _ _))
  rw [List.nil_append] at holds
  refine ⟨final, items, left, run, cuts, holds.front, holds.written, holds.length, ?_, written, ?_⟩
  · rw [counted]
    exact Nat.zero_add _
  · intro nothing
    apply holds.untouched
    rw [holds.written, cuts.left_whole nothing, finished]
    rfl

end Scanner

end GridcoreRunner.Compaction
