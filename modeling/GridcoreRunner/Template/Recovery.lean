import GridcoreRunner.Json.ModeLanguage
import GridcoreRunner.Template.CallItems

/-!
# What the recovery of tool calls leaves

The three scanners end on every content and cut exactly the call blocks they find. The items
they write are the objects of these calls where no length fails the buffer, and the arguments
are JSON objects where the content spells them without what the scanners pass on unseen: a
parameter name that leaves its string, or number bytes that are no number.
-/

namespace GridcoreRunner.Template

set_option autoImplicit false

open GridcoreRunner.Json GridcoreRunner.Compaction

theorem as_size_small {n : Nat} (small : n < 2 ^ 31) : asSize n = n := by
  unfold asSize
  rw [Nat.mod_eq_of_lt (by omega), if_pos small]

theorem call_close_room (s : Bytes) :
    (if callClose <+: s then callClose.length else 0) ≤ s.length := by
  by_cases closed : callClose <+: s
  · rw [if_pos closed]
    exact closed.length_le
  · rw [if_neg closed]
    exact Nat.zero_le _

/-! ## The marker runner replays itself -/

theorem brace_loop_room : ∀ (depth : Nat) (inString : Bool) (s : Bytes) (q : Nat),
    braceLoop depth inString s = some q → q ≤ s.length := by
  intro depth inString s
  fun_induction braceLoop depth inString s with
  | case1 => simp
  | case2 => simp
  | case3 depth d s induction =>
      intro q run
      obtain ⟨less, later, rfl⟩ := Option.map_eq_some_iff.mp run
      have room := induction less later
      simp only [List.length_cons]
      omega
  | case4 depth c s other induction =>
      intro q run
      obtain ⟨less, later, rfl⟩ := Option.map_eq_some_iff.mp run
      exact Nat.succ_le_succ (induction less later)
  | case5 depth s induction =>
      intro q run
      obtain ⟨less, later, rfl⟩ := Option.map_eq_some_iff.mp run
      exact Nat.succ_le_succ (induction less later)
  | case6 depth s other induction =>
      intro q run
      obtain ⟨less, later, rfl⟩ := Option.map_eq_some_iff.mp run
      exact Nat.succ_le_succ (induction less later)
  | case7 =>
      intro q run
      cases run
      simp
  | case8 depth s other1 other2 deeper induction =>
      intro q run
      obtain ⟨less, later, rfl⟩ := Option.map_eq_some_iff.mp run
      exact Nat.succ_le_succ (induction less later)
  | case9 depth c s other1 other2 other3 induction =>
      intro q run
      obtain ⟨less, later, rfl⟩ := Option.map_eq_some_iff.mp run
      exact Nat.succ_le_succ (induction less later)

theorem replayed_block_bounds {s : Bytes} {block : ReplayedBlock}
    (read : replayedBlock s = some block) : 0 < block.q ∧ block.q ≤ s.length := by
  simp only [replayedBlock] at read
  generalize (((s.drop callOpen.length).take 128).takeWhile
    fun c => c != lbrace && c != 0x3c).length = n at read
  by_cases opened : ((s.drop callOpen.length).drop n).head? = some lbrace
  · rw [if_neg (not_not_intro opened)] at read
    obtain ⟨q, matched, rfl⟩ := Option.map_eq_some_iff.mp read
    have inside := brace_loop_room 0 false _ q matched
    have some_ : 0 < ((s.drop callOpen.length).drop n).length := by
      apply List.length_pos_iff.mpr
      intro empty
      rw [empty] at opened
      cases opened
    have open_ : 0 < callOpen.length := by decide
    rw [List.length_drop, List.length_drop] at inside some_
    simp only
    omega
  · rw [if_pos opened] at read
    cases read

/-- What a replayed call was read from. -/
theorem replayed_call_reads {s : Bytes} {call : Call} {n : Nat}
    (read : replayedCall s = .done (call, n)) : ∃ block, replayedBlock s = some block ∧
      call.name = narrowed (slice s callOpen.length block.brace) ∧
      call.arguments = escaped (narrowed (slice s block.brace block.q)) ∧
      n = block.q + if callClose <+: s.drop block.q then callClose.length else 0 := by
  rw [replayedCall] at read
  cases found : replayedBlock s with
  | none =>
      rw [found] at read
      cases read
  | some block =>
      rw [found] at read
      cases read
      exact ⟨block, rfl, rfl, rfl, rfl⟩

theorem replayed_lawful : replayedScanner.Lawful where
  ends := by
    intro s
    simp only [replayedScanner, replayedCall]
    split <;> simp
  room := by
    intro s call n marked read
    obtain ⟨block, found, _, _, rfl⟩ := replayed_call_reads read
    have bounds := replayed_block_bounds found
    have close := call_close_room (s.drop block.q)
    rw [List.length_drop] at close
    omega
  some_ := by decide
  inside := Nat.le_refl _
  apart := by decide +kernel

/-! ## The dialect of Ornith -/

theorem strstr_found {needle s : Bytes} {p q : Nat} (found : strstr needle s p = some q) :
    p ≤ q ∧ q < s.length ∧ needle <+: s.drop q := by
  obtain ⟨⟨index, name⟩, hit, rfl⟩ := Option.map_eq_some_iff.mp found
  obtain ⟨bound, here⟩ := Text.first_hit_some hit
  obtain ⟨member, begins⟩ := Text.hit_at_some here
  rw [List.mem_singleton.mp member, List.drop_drop] at begins
  rw [List.length_drop] at bound
  exact ⟨Nat.le_add_right p index, by omega, begins⟩

theorem memchr_found {c : UInt8} {s : Bytes} {p n q : Nat} (found : memchr c s p n = some q) :
    p ≤ q ∧ q < p + n ∧ q < s.length := by
  obtain ⟨index, hit, rfl⟩ := Option.map_eq_some_iff.mp found
  have bound := (List.findIdx?_eq_some_iff_getElem.mp hit).1
  rw [List.length_take, List.length_drop] at bound
  exact ⟨Nat.le_add_right p index, by omega, by omega⟩

/-- A parameter is read forward, and ends in front of the end of the function. -/
theorem next_parameter_bounds {s : Bytes} {fnEnd a : Nat} {parameter : Parameter}
    (found : nextParameter s fnEnd a = some parameter) :
    a < parameter.valueEnd ∧ parameter.valueEnd ≤ fnEnd := by
  obtain ⟨p, opened, found⟩ := Option.bind_eq_some_iff.mp found
  by_cases past : p ≥ fnEnd
  · rw [if_pos past] at found
    cases found
  · rw [if_neg past] at found
    obtain ⟨nameEnd, named, found⟩ := Option.bind_eq_some_iff.mp found
    obtain ⟨valueEnd, valued, found⟩ := Option.bind_eq_some_iff.mp found
    by_cases late : valueEnd > fnEnd
    · rw [if_pos late] at found
      cases found
    · rw [if_neg late] at found
      cases found
      have first := (strstr_found opened).1
      have second := (memchr_found named).1
      have third := (strstr_found valued).1
      simp only at *
      omega

/-- The parameters that the loop records from a position on. -/
inductive Parameters (s : Bytes) (fnEnd : Nat) : Nat → List Parameter → Prop
  | done {a : Nat} (finished : a < fnEnd → nextParameter s fnEnd a = none) : Parameters s fnEnd a []
  | next {a : Nat} {parameter : Parameter} {more : List Parameter} (before : a < fnEnd)
      (found : nextParameter s fnEnd a = some parameter)
      (later : Parameters s fnEnd (parameter.valueEnd + parameterEnd.length) more) :
      Parameters s fnEnd a (parameter :: more)

def parametersText (s : Bytes) : Bool → List Parameter → Written
  | _, [] => []
  | first, parameter :: more =>
      parameterItem first (parameterName s parameter) (parameterValue s parameter) ++
        parametersText s false more

/-- The loop ends and writes the parameters it records. -/
theorem parameter_loop_reads (s : Bytes) (fnEnd : Nat) : ∀ (rounds a : Nat) (first : Bool)
    (out : Written), fnEnd - a < rounds → ∃ parameters, Parameters s fnEnd a parameters ∧
      parameterLoop s fnEnd rounds a first out =
        .done (out ++ parametersText s first parameters) := by
  intro rounds
  induction rounds with
  | zero =>
      intro a first out enough
      exact absurd enough (Nat.not_lt_zero _)
  | succ rounds induction =>
      intro a first out enough
      rw [parameterLoop]
      by_cases before : a < fnEnd
      · rw [if_pos before]
        cases found : nextParameter s fnEnd a with
        | none =>
            refine ⟨[], .done fun _ => found, ?_⟩
            rw [parametersText, List.append_nil]
        | some parameter =>
            have bounds := next_parameter_bounds found
            obtain ⟨more, later, run⟩ :=
              induction (parameter.valueEnd + parameterEnd.length) false _ (by omega)
            refine ⟨parameter :: more, .next before found later, ?_⟩
            simp only
            rw [run, parametersText, List.append_assoc]
      · rw [if_neg before]
        refine ⟨[], .done fun inside => absurd inside before, ?_⟩
        rw [parametersText, List.append_nil]

theorem ornith_block_bounds {s : Bytes} {block : OrnithBlock}
    (read : ornithBlock s = some block) :
    0 < block.stop ∧ block.stop ≤ s.length ∧ block.fnEnd < s.length := by
  simp only [ornithBlock] at read
  by_cases other : functionOpen <+: s.drop (trimLeft s ornithOpen.length s.length)
  · rw [if_neg (not_not_intro other)] at read
    obtain ⟨nameEnd, named, read⟩ := Option.bind_eq_some_iff.mp read
    obtain ⟨fnEnd, ended, read⟩ := Option.bind_eq_some_iff.mp read
    by_cases closed : ornithClose <+:
        s.drop (trimLeft s (fnEnd + functionEnd.length) s.length)
    · rw [if_neg (not_not_intro closed)] at read
      cases read
      have room := closed.length_le
      have some_ : 0 < ornithClose.length := by decide
      rw [List.length_drop] at room
      have inside := (strstr_found ended).2.1
      simp only
      omega
    · rw [if_pos closed] at read
      cases read
  · rw [if_pos other] at read
    cases read

/-- What an Ornith call was read from. -/
theorem ornith_call_reads (s : Bytes) : ornithBlock s = none ∧ ornithCall s = .refused ∨
    ∃ block parameters, ornithBlock s = some block ∧
      Parameters s block.fnEnd (block.nameEnd + 1) parameters ∧
      ornithCall s = .done (
        { name := narrowed (slice s block.name block.nameEnd),
          arguments := written [lbrace] ++ (parametersText s true parameters ++ written [rbrace]) },
        block.stop) := by
  cases read : ornithBlock s with
  | none =>
      left
      simp [ornithCall, read]
  | some block =>
      right
      have bounds := ornith_block_bounds read
      obtain ⟨parameters, recorded, run⟩ := parameter_loop_reads s block.fnEnd
        (s.length + 1) (block.nameEnd + 1) true [] (by omega)
      refine ⟨block, parameters, rfl, recorded, ?_⟩
      simp only [ornithCall, read, run, Outcome.map_done, List.nil_append]

theorem ornith_lawful : ornithScanner.Lawful where
  ends := by
    intro s
    rcases ornith_call_reads s with ⟨_, answer⟩ | ⟨block, parameters, _, _, answer⟩ <;>
      simp [ornithScanner, answer]
  room := by
    intro s call n _ read
    have read : ornithCall s = .done (call, n) := read
    rcases ornith_call_reads s with ⟨_, answer⟩ | ⟨block, parameters, found, _, answer⟩
    · rw [answer] at read
      cases read
    · rw [answer] at read
      cases read
      have bounds := ornith_block_bounds found
      exact ⟨bounds.1, bounds.2.1⟩
  some_ := by decide
  inside := by decide
  apart := by decide +kernel

/-! ## The dialect of Gemma 4 -/

/-- A call is read from its name and the object behind it. -/
theorem g4_one_call {name s text rest : Bytes} (plain : ∀ c ∈ name, c ≠ lbrace)
    (valued : g4JsonValue g4MaxDepth (lbrace :: s) = .done (text, rest)) :
    g4OneCall (callOpen ++ (name ++ lbrace :: s)) =
      if name = [] then .refused
      else .done ({ name := some name, arguments := written (sbEsc text) },
        (callOpen ++ (name ++ lbrace :: s)).length - rest.length +
          if callClose <+: rest then callClose.length else 0) := by
  have bytes : ∀ c ∈ name, (c != lbrace) = true := by
    intro c inside
    simpa using plain c inside
  have taken : (name ++ lbrace :: s).takeWhile (· != lbrace) = name := by
    rw [List.takeWhile_append_of_pos bytes]
    simp
  have left : (name ++ lbrace :: s).dropWhile (· != lbrace) = lbrace :: s := by
    rw [List.dropWhile_append_of_pos bytes]
    simp
  have object : g4JsonObject g4MaxDepth s = .done (text, rest) := by
    rw [← valued, g4_json_value_inside]
    exact (opener_value (g4Inside g4MaxDepth) .brace s).symm
  rw [g4OneCall, if_neg (not_not_intro (List.prefix_append _ _)), List.drop_left]
  simp only [taken, left, object, Outcome.map_done]

/-- What a Gemma 4 call was read from. -/
theorem g4_call_reads {s : Bytes} {call : Call} {n : Nat} (read : g4OneCall s = .done (call, n)) :
    ∃ (name : Bytes) (entries : Entries .brace) (rest : Bytes), name ≠ [] ∧
      (∀ c ∈ name, c ≠ lbrace) ∧ (Native.full .brace entries).Fits g4MaxDepth ∧
      s = callOpen ++ (name ++ ((Native.full .brace entries).spelling ++ rest)) ∧
      call = { name := some name, arguments := written (sbEsc (Native.full .brace entries).json) } ∧
      n = s.length - rest.length + if callClose <+: rest then callClose.length else 0 := by
  rw [g4OneCall] at read
  by_cases opened : callOpen <+: s
  · rw [if_neg (not_not_intro opened)] at read
    obtain ⟨p, rfl⟩ := opened
    rw [List.drop_left] at read
    have whole := List.takeWhile_append_dropWhile (p := (· != lbrace)) (l := p)
    have plain : ∀ c ∈ p.takeWhile (· != lbrace), c ≠ lbrace := by
      intro c inside
      simpa using List.mem_takeWhile_imp inside
    simp only at read
    cases left : p.dropWhile (· != lbrace) with
    | nil =>
        rw [left] at read
        cases read
    | cons c inside =>
        have stopped : c = lbrace := by
          have head := List.head?_dropWhile_not (· != lbrace) p
          rw [left] at head
          simpa using head
        rw [stopped] at left
        rw [left] at read whole
        by_cases empty : p.takeWhile (· != lbrace) = []
        · simp only [if_pos empty] at read
          cases read
        · simp only [if_neg empty] at read
          obtain ⟨⟨text, rest⟩, valued, read⟩ := Outcome.bind_eq_done.mp read
          obtain ⟨entries, spelled, rfl, fits⟩ := g4_object_native valued
          cases read
          refine ⟨_, entries, rest, empty, plain, fits, ?_, rfl, rfl⟩
          rw [← spelled, whole]
  · rw [if_pos opened] at read
    cases read

theorem g4_call_ends (s : Bytes) : g4OneCall s ≠ .wrong := by
  rw [g4OneCall]
  by_cases opened : callOpen <+: s
  · rw [if_neg (not_not_intro opened)]
    simp only
    cases (s.drop callOpen.length).dropWhile (· != lbrace) with
    | nil => simp
    | cons c inside =>
        by_cases empty : (s.drop callOpen.length).takeWhile (· != lbrace) = []
        · simp only [if_pos empty]
          simp
        · simp only [if_neg empty]
          apply Outcome.bind_ne_wrong (g4_object_ends _ _)
          intro found _
          simp
  · rw [if_pos opened]
    simp

theorem gemma4_lawful : gemma4Scanner.Lawful where
  ends := g4_call_ends
  room := by
    intro s call n _ read
    obtain ⟨name, entries, rest, _, _, _, spelled, _, rfl⟩ := g4_call_reads read
    have close := call_close_room rest
    have length := congrArg List.length spelled
    have open_ : 0 < callOpen.length := by decide
    simp only [List.length_append] at length
    omega
  some_ := by decide
  inside := Nat.le_refl _
  apart := by decide +kernel

theorem scanner_lawful (tmpl : Tmpl) : (scannerFor tmpl).Lawful := by
  unfold scannerFor
  split_ifs
  · exact ornith_lawful
  · exact gemma4_lawful
  · exact replayed_lawful

theorem scanner_emits (tmpl : Tmpl) : (scannerFor tmpl).emit = emitItem := by
  unfold scannerFor
  split_ifs <;> rfl

end GridcoreRunner.Template
