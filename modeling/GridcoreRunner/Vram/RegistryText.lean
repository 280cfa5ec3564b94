import GridcoreRunner.Vram.Registry
import Mathlib.Data.List.Basic

/-!
# Reading the registry back

A registry that was written is read back entry for entry, and what is read is
fit to be written.
-/

namespace GridcoreRunner.Vram

set_option autoImplicit false

/-- An entry a line can hold. -/
structure RegEntry.Fine (e : RegEntry) : Prop where
  owner : 0 < e.pid
  short : e.model.length ≤ 255
  clean : ∀ c ∈ e.model, c ≠ tab ∧ c ≠ newline ∧ c ≠ 0

/-! ## Numbers -/

theorem strtol_of_int (x : Int64) : strtol (Decimal.ofInt x.toInt) = x := by
  have low := Int64.le_toInt x
  have high := Int64.toInt_lt x
  have inside : max (-2 ^ 63) (min (2 ^ 63 - 1) x.toInt) = x.toInt := by omega
  rw [strtol, Decimal.to_int_of_int, inside, Int64.ofInt_toInt]

theorem strtol_of_int32 (x : Int32) : (strtol (Decimal.ofInt x.toInt)).toInt32 = x := by
  have low := Int32.le_toInt x
  have high := Int32.toInt_lt x
  have inside : max (-2 ^ 63) (min (2 ^ 63 - 1) x.toInt) = x.toInt := by omega
  rw [strtol, Decimal.to_int_of_int, inside, Int64.toInt32_ofInt, Int32.ofInt_toInt]

theorem strtoull_of_nat (x : UInt64) : strtoull (Decimal.ofNat x.toNat) = x := by
  have below := x.toNat_lt
  simp only [strtoull, Decimal.scan_of_nat, if_neg (show ¬2 ^ 64 ≤ x.toNat by omega),
    Bool.false_eq_true, if_false, UInt64.ofNat_toNat]

/-! ## One line -/

/-- Bytes of numbers are no separators. -/
theorem digit_plain {c : UInt8} (printed : c = 45 ∨ Decimal.isDigit c = true) :
    c ≠ tab ∧ c ≠ newline ∧ c ≠ 0 ∧ c ≠ 35 := by
  rcases printed with sign | digit
  · rw [sign]
    decide
  · simp only [Decimal.isDigit, Bool.and_eq_true, decide_eq_true_eq, UInt8.le_iff_toNat_le] at digit
    simp only [ne_eq, ← UInt8.toNat_inj, tab, newline]
    simp at digit ⊢
    omega

theorem int_plain {i : Int} {c : UInt8} (inside : c ∈ Decimal.ofInt i) :
    c ≠ tab ∧ c ≠ newline ∧ c ≠ 0 ∧ c ≠ 35 :=
  digit_plain (Decimal.of_int_byte inside)

theorem nat_plain {n : Nat} {c : UInt8} (inside : c ∈ Decimal.ofNat n) :
    c ≠ tab ∧ c ≠ newline ∧ c ≠ 0 ∧ c ≠ 35 :=
  digit_plain (Or.inr (Decimal.of_nat_digit inside))

theorem fields_cons (more : Nat) {field : Bytes} (rest : Bytes) (plain : ∀ c ∈ field, c ≠ tab) :
    fields (more + 1) (field ++ tab :: rest) = field :: fields more rest := by
  have stays : ∀ c ∈ field, (c != tab) = true := by
    intro c inside
    simpa using plain c inside
  rw [fields, List.takeWhile_append_of_pos stays, List.dropWhile_append_of_pos stays]
  simp

theorem fields_last (more : Nat) {field : Bytes} (plain : ∀ c ∈ field, c ≠ tab) :
    fields (more + 1) field = [field] := by
  have stays : ∀ c ∈ field, (c != tab) = true := by
    intro c inside
    simpa using plain c inside
  rw [fields, List.takeWhile_eq_self_iff.mpr stays, List.dropWhile_eq_nil_iff.mpr stays]

theorem state_of_char (state : EntryState) : stateOf [stateChar state] = state := by
  cases state <;> rfl

theorem entry_line_fields {e : RegEntry} (fine : e.Fine) :
    fields 8 (entryLine e) =
      [Decimal.ofInt e.pid.toInt, Decimal.ofInt e.seq.toInt, Decimal.ofNat e.procstart.toNat,
        Decimal.ofNat e.since.toNat, [stateChar e.state], Decimal.ofNat e.bytes.toNat, e.model,
        Decimal.ofInt e.priority.toInt] := by
  have int : ∀ i : Int, ∀ c ∈ Decimal.ofInt i, c ≠ tab := fun i c inside => (int_plain inside).1
  have nat : ∀ n : Nat, ∀ c ∈ Decimal.ofNat n, c ≠ tab := fun n c inside => (nat_plain inside).1
  have state : ∀ c ∈ [stateChar e.state], c ≠ tab := by
    intro c inside
    rw [List.mem_singleton.mp inside]
    cases e.state <;> decide
  have model : ∀ c ∈ e.model, c ≠ tab := fun c inside => (fine.clean c inside).1
  have whole : entryLine e =
      Decimal.ofInt e.pid.toInt ++ tab :: (Decimal.ofInt e.seq.toInt ++
        tab :: (Decimal.ofNat e.procstart.toNat ++ tab :: (Decimal.ofNat e.since.toNat ++
        tab :: ([stateChar e.state] ++ tab :: (Decimal.ofNat e.bytes.toNat ++
        tab :: (e.model ++ tab :: Decimal.ofInt e.priority.toInt)))))) := by
    simp [entryLine]
  rw [whole, fields_cons _ _ (int _), fields_cons _ _ (int _), fields_cons _ _ (nat _),
    fields_cons _ _ (nat _), fields_cons _ _ state, fields_cons _ _ (nat _),
    fields_cons _ _ model, fields_last _ (int _)]

/-- No byte of a line is a line end or a NUL. -/
theorem entry_line_plain {e : RegEntry} (fine : e.Fine) :
    ∀ c ∈ entryLine e, c ≠ newline ∧ c ≠ 0 := by
  intro c inside
  have int : ∀ i : Int, c ∈ Decimal.ofInt i → c ≠ newline ∧ c ≠ 0 :=
    fun i printed => ⟨(int_plain printed).2.1, (int_plain printed).2.2.1⟩
  have nat : ∀ n : Nat, c ∈ Decimal.ofNat n → c ≠ newline ∧ c ≠ 0 :=
    fun n printed => ⟨(nat_plain printed).2.1, (nat_plain printed).2.2.1⟩
  have cut : c = tab → c ≠ newline ∧ c ≠ 0 := by
    intro same
    rw [same]
    decide
  have state : c = stateChar e.state → c ≠ newline ∧ c ≠ 0 := by
    intro same
    rw [same]
    cases e.state <;> decide
  simp only [entryLine, List.mem_append, List.mem_cons] at inside
  rcases inside with ((((((pid | cut_ | seq) | cut_ | start) | cut_ | since) | cut_ | char | cut_ |
    bytes) | cut_ | model) | cut_ | priority)
  · exact int _ pid
  · exact cut cut_
  · exact int _ seq
  · exact cut cut_
  · exact nat _ start
  · exact cut cut_
  · exact nat _ since
  · exact cut cut_
  · exact state char
  · exact cut cut_
  · exact nat _ bytes
  · exact cut cut_
  · exact (fine.clean c model).2
  · exact cut cut_
  · exact int _ priority

theorem of_int_length {i : Int} (low : -2 ^ 63 ≤ i) (high : i < 2 ^ 63) :
    (Decimal.ofInt i).length ≤ 20 := by
  have digits : (Decimal.ofNat i.natAbs).length ≤ 19 :=
    Decimal.of_nat_length (by omega) (by omega)
  unfold Decimal.ofInt
  split_ifs
  · rw [List.length_cons]
    omega
  · omega

theorem entry_line_length {e : RegEntry} (fine : e.Fine) : (entryLine e).length < regLineMax := by
  have word : ∀ x : UInt64, (Decimal.ofNat x.toNat).length ≤ 20 := by
    intro x
    have below := x.toNat_lt
    exact Decimal.of_nat_length (by omega) (by omega)
  have long : ∀ x : Int64, (Decimal.ofInt x.toInt).length ≤ 20 := fun x =>
    of_int_length (Int64.le_toInt x) (Int64.toInt_lt x)
  have pid := long e.pid
  have seq := long e.seq
  have start := word e.procstart
  have since := word e.since
  have bytes := word e.bytes
  have low := Int32.le_toInt e.priority
  have high := Int32.toInt_lt e.priority
  have priority : (Decimal.ofInt e.priority.toInt).length ≤ 20 := of_int_length (by omega) (by omega)
  have short := fine.short
  simp only [entryLine, List.length_append, List.length_cons, regLineMax]
  omega

theorem parse_line_entry {e : RegEntry} (fine : e.Fine) : parseLine (entryLine e) = some e := by
  have short := entry_line_length fine
  have head : entryLine e ≠ [] ∧ (entryLine e).head? ≠ some 35 := by
    have some_ : Decimal.ofInt e.pid.toInt ≠ [] := by
      unfold Decimal.ofInt
      split_ifs
      · exact List.cons_ne_nil _ _
      · exact Decimal.of_nat_ne_nil _
    rcases printed : Decimal.ofInt e.pid.toInt with _ | ⟨c, rest⟩
    · exact absurd printed some_
    · have first := int_plain (show c ∈ Decimal.ofInt e.pid.toInt by simp [printed])
      simp [entryLine, printed, first.2.2.2]
  rw [parseLine, if_neg (by simp only [head.1, head.2, false_or, or_false]; omega),
    entry_line_fields fine]
  simp only [readEntry, strtol_of_int, strtol_of_int32, strtoull_of_nat, state_of_char,
    if_pos fine.owner, List.take_of_length_le fine.short]

/-! ## The whole file -/

theorem serialise_loop_eq {entries : List RegEntry} (fine : ∀ e ∈ entries, e.Fine) {cap off : Nat}
    (room : off + entries.length * regLineMax < cap) :
    serialiseLoop cap off entries = entries.flatMap fun e => entryLine e ++ [newline] := by
  induction entries generalizing off with
  | nil => rfl
  | cons e rest induction =>
      have short := entry_line_length (fine e List.mem_cons_self)
      simp only [List.length_cons, regLineMax] at room short
      have next := @induction (fun f inside => fine f (List.mem_cons_of_mem e inside))
        (off + (entryLine e).length + 1) (by simp only [regLineMax]; omega)
      rw [serialiseLoop, if_pos (by simp only [regLineMax]; omega), next]
      simp

/-- The buffer has room for every line. -/
theorem serialise_eq {entries : List RegEntry} (fine : ∀ e ∈ entries, e.Fine) :
    serialise entries = entries.flatMap fun e => entryLine e ++ [newline] := by
  apply serialise_loop_eq fine
  simp only [regLineMax]
  omega

theorem parse_loop_lines {entries : List RegEntry} (fine : ∀ e ∈ entries, e.Fine)
    {rounds room : Nat} (more : entries.length < rounds) (fits : entries.length ≤ room) :
    parseLoop rounds room (entries.flatMap fun e => entryLine e ++ [newline]) = entries := by
  induction entries generalizing rounds room with
  | nil =>
      cases rounds with
      | zero => rfl
      | succ rounds => simp [parseLoop]
  | cons e rest induction =>
      cases rounds with
      | zero => simp at more
      | succ rounds =>
          have here := fine e List.mem_cons_self
          have plain : ∀ c ∈ entryLine e, (c != newline) = true := by
            intro c inside
            simpa using (entry_line_plain here c inside).1
          simp only [List.length_cons] at more fits
          have next := @induction (fun f inside => fine f (List.mem_cons_of_mem e inside)) rounds
            (room - 1) (by omega) (by omega)
          have text : (e :: rest).flatMap (fun e => entryLine e ++ [newline]) =
              entryLine e ++ newline :: rest.flatMap fun e => entryLine e ++ [newline] := by
            simp
          rw [text, parseLoop, if_neg (by simp; omega), List.takeWhile_append_of_pos plain,
            List.dropWhile_append_of_pos plain]
          simp [parse_line_entry here, next]

theorem parse_serialise {entries : List RegEntry} (fine : ∀ e ∈ entries, e.Fine)
    (fits : entries.length ≤ regMaxEntries) : parse (serialise entries) = entries := by
  have plain : ∀ c ∈ serialise entries, (c != 0) = true := by
    rw [serialise_eq fine]
    intro c inside
    rcases List.mem_flatMap.mp inside with ⟨e, member, line⟩
    rcases List.mem_append.mp line with printed | stop
    · simpa using (entry_line_plain (fine e member) c printed).2
    · rw [List.mem_singleton.mp stop]
      decide
  have lines : entries.length ≤ (serialise entries).length := by
    rw [serialise_eq fine, List.length_flatMap]
    simp
  rw [parse, cString, List.takeWhile_eq_self_iff.mpr plain]
  conv => lhs; rw [serialise_eq fine]
  apply parse_loop_lines fine _ fits
  rw [← serialise_eq fine]
  omega

end GridcoreRunner.Vram
