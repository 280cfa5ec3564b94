import GridcoreRunner.Gguf.Safety

/-!
# The parts of a split set

The names of the parts of one set end in numbers of five digits, so a part's own numbers are the
only ones its name goes with, and every part leads to the same first name. Opening therefore
depends on the set alone.
-/

namespace GridcoreRunner.Gguf

set_option autoImplicit false

/-- The name of part `i` of a set of `count` parts. -/
def partPath (stem : Bytes) (count i : Nat) : Bytes := stem ++ splitSuffix i count

/-! ## Numbers behind hyphens -/

theorem pad5_digits {n : Nat} {c : UInt8} (inside : c ∈ pad5 n) : Decimal.isDigit c = true := by
  rcases List.mem_append.mp inside with zero | digit
  · rw [List.eq_of_mem_replicate zero]
    decide
  · exact Decimal.of_nat_digit digit

theorem value_zeros (n : Nat) (text : Bytes) :
    Decimal.value (List.replicate n 48 ++ text) = Decimal.value text := by
  have zero : Decimal.value (List.replicate n 48) = 0 := by
    induction n with
    | zero => rfl
    | succ n induction =>
        rw [List.replicate_succ', Decimal.value_snoc, induction]
        rfl
  rw [Decimal.value] at zero ⊢
  rw [List.foldl_append, zero]
  rfl

theorem pad5_injective {m n : Nat} (same : pad5 m = pad5 n) : m = n := by
  have values := congrArg Decimal.value same
  rw [pad5, pad5, value_zeros, value_zeros, Decimal.value_of_nat, Decimal.value_of_nat] at values
  exact values

/-- Digits behind a hyphen at the end of a text are read off it. -/
theorem digits_behind_hyphen {front back ds es : Bytes}
    (left : ∀ c ∈ ds, Decimal.isDigit c = true) (right : ∀ c ∈ es, Decimal.isDigit c = true)
    (same : front ++ [45] ++ ds = back ++ [45] ++ es) : front = back ∧ ds = es := by
  rcases List.append_eq_append_iff.mp same with ⟨gap, behind, before⟩ | ⟨gap, behind, before⟩
  · cases gap using List.reverseRecOn with
    | nil =>
        rw [List.append_nil] at behind
        exact ⟨(List.append_cancel_right behind).symm, before⟩
    | append_singleton gap c =>
        have hyphen := congrArg List.getLast? behind
        rw [← List.append_assoc, List.getLast?_append, List.getLast?_append] at hyphen
        have last : c = 45 := by simpa using hyphen.symm
        have digit := left c (by rw [before]; simp)
        rw [last] at digit
        exact absurd digit (by decide)
  · cases gap using List.reverseRecOn with
    | nil =>
        rw [List.append_nil] at behind
        exact ⟨List.append_cancel_right behind, before.symm⟩
    | append_singleton gap c =>
        have hyphen := congrArg List.getLast? behind
        rw [← List.append_assoc, List.getLast?_append, List.getLast?_append] at hyphen
        have last : c = 45 := by simpa using hyphen.symm
        have digit := right c (by rw [before]; simp)
        rw [last] at digit
        exact absurd digit (by decide)

theorem part_path_injective {stem stem' : Bytes} {i j m n : Nat}
    (same : partPath stem m i = partPath stem' n j) : stem = stem' ∧ i = j ∧ m = n := by
  rw [partPath, partPath, splitSuffix, splitSuffix] at same
  have joined : stem ++ [45] ++ pad5 (i + 1) ++ [45, 111, 102] ++ [45] ++ pad5 m =
      stem' ++ [45] ++ pad5 (j + 1) ++ [45, 111, 102] ++ [45] ++ pad5 n := by
    have ended : stem ++ [45] ++ pad5 (i + 1) ++ [45, 111, 102] ++ [45] ++ pad5 m ++ ascii ".gguf" =
        stem' ++ [45] ++ pad5 (j + 1) ++ [45, 111, 102] ++ [45] ++ pad5 n ++ ascii ".gguf" := by
      simpa [ascii, List.append_assoc] using same
    exact List.append_cancel_right ended
  obtain ⟨fronts, counts⟩ :=
    digits_behind_hyphen (fun c => pad5_digits) (fun c => pad5_digits) joined
  obtain ⟨stems, numbers⟩ := digits_behind_hyphen (fun c => pad5_digits) (fun c => pad5_digits)
    (List.append_cancel_right fronts)
  have next := pad5_injective numbers
  exact ⟨stems, by omega, pad5_injective counts⟩

/-! ## One name from another -/

theorem split_part_path_own (stem : Bytes) (count i wanted : Nat) :
    splitPartPath (partPath stem count i) i count wanted =
      if (partPath stem count wanted).length < 4096 then some (partPath stem count wanted)
      else none := by
  have size : (partPath stem count i).length = stem.length + (splitSuffix i count).length :=
    List.length_append
  have behind : (partPath stem count i).length - (splitSuffix i count).length = stem.length := by
    omega
  have fits : ¬ ((partPath stem count i).length < (splitSuffix i count).length ∨
      (partPath stem count i).drop stem.length ≠ splitSuffix i count) := by
    rw [partPath, List.drop_left]
    simp
  rw [splitPartPath, behind, if_neg fits, partPath, List.take_left]
  rfl

/-- A part's name goes with its own numbers only. -/
theorem split_part_path_some {stem path : Bytes} {n j current count wanted : Nat}
    (found : splitPartPath (partPath stem n j) current count wanted = some path) :
    current = j ∧ count = n ∧ path = partPath stem n wanted ∧ path.length < 4096 := by
  have same : partPath stem n j = partPath ((partPath stem n j).take
      ((partPath stem n j).length - (splitSuffix current count).length)) count current := by
    rw [splitPartPath] at found
    split_ifs at found with mismatch
    have behind := (not_or.mp mismatch).2
    rw [ne_eq, not_not] at behind
    conv_lhs => rw [← List.take_append_drop
      ((partPath stem n j).length - (splitSuffix current count).length) (partPath stem n j)]
    rw [behind]
    rfl
  obtain ⟨_, number, counts⟩ := part_path_injective same
  rw [← number, ← counts] at found
  rw [split_part_path_own] at found
  split_ifs at found with short
  have this_ := Option.some.inj found
  rw [← this_]
  exact ⟨number.symm, counts.symm, rfl, short⟩

/-! ## The loop over the parts -/

/-- A part under its own name, which declares its own number and the numbers of the set. -/
structure IsPart (disk : Bytes → Option Bytes) (first : Bytes) (count expected i : Nat)
    (part : GgufFile) : Prop where
  opens : ∃ path map, splitPartPath first 0 count i = some path ∧ disk path = some map ∧
    ggufOpenOne map = some part
  number : splitNo part.kv = i
  counted : splitCount part.kv = count
  declared : splitTensors part.kv = expected

theorem consistent_numbers {head part : GgufFile} {i count expected total mapped mapSize : Nat}
    (fine : consistent head part i count expected total mapped mapSize = true) :
    splitNo part.kv = i ∧ splitCount part.kv = count ∧ splitTensors part.kv = expected := by
  simp only [consistent, Bool.and_eq_true, beq_iff_eq] at fine
  obtain ⟨⟨⟨⟨⟨⟨_, number⟩, counted⟩, declared⟩, _⟩, _⟩, _⟩ := fine
  exact ⟨number, counted, declared⟩

theorem open_parts_some {disk : Bytes → Option Bytes} {first : Bytes}
    {count expected left i total mapped sum : Nat} {parts result : List GgufFile}
    (opened : openParts disk first count expected left i parts total mapped = some (result, sum)) :
    ∃ more, result = parts ++ more ∧ more.length = left ∧
      (∀ k part, more[k]? = some part → IsPart disk first count expected (i + k) part) ∧
        total + (more.map fun part => part.tensors.length).sum = expected := by
  induction left generalizing i parts total mapped with
  | zero =>
      rw [openParts] at opened
      split_ifs at opened with all
      cases opened
      exact ⟨[], (List.append_nil _).symm, rfl, by simp, by simpa using all⟩
  | succ left induction =>
      rw [openParts] at opened
      obtain ⟨path, named, opened⟩ := Option.bind_eq_some_iff.mp opened
      obtain ⟨map, there, opened⟩ := Option.bind_eq_some_iff.mp opened
      obtain ⟨part, read, opened⟩ := Option.bind_eq_some_iff.mp opened
      split_ifs at opened with fine
      obtain ⟨number, counted, declared⟩ := consistent_numbers fine
      obtain ⟨more, joined, long, each, sums⟩ := induction opened
      refine ⟨part :: more, by rw [joined, List.append_assoc]; rfl, by rw [List.length_cons, long],
        ?_, ?_⟩
      · intro k other place
        cases k with
        | zero =>
            cases place
            exact ⟨⟨path, map, named, there, read⟩, number, counted, declared⟩
        | succ k =>
            have later := each k other place
            rw [Nat.add_assoc, Nat.add_comm 1 k] at later
            exact later
      · rw [List.map_cons, List.sum_cons]
        omega

end GridcoreRunner.Gguf
