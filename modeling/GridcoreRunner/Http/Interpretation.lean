import GridcoreRunner.Http.Framing
import Mathlib.Data.List.TakeWhile

/-!
# What an accepted request says

A header block as any other reader of it takes it: lines of a token, a colon and a value. The two
checks pass over a line without a colon and compare a name with the blanks in front of its colon,
so the reading is one only on blocks of proper field lines.
-/

namespace GridcoreRunner.Http

set_option autoImplicit false

open Decimal (isDigit)

/-- The bytes of a token. -/
def tchar (c : UInt8) : Bool :=
  isDigit c || (0x41 ≤ c && c ≤ 0x5a) || (0x61 ≤ c && c ≤ 0x7a) ||
    [0x21, 0x23, 0x24, 0x25, 0x26, 0x27, 0x2a, 0x2b, 0x2d, 0x2e, 0x5e, 0x5f, 0x60, 0x7c,
      0x7e].contains c

def consLine (c : UInt8) : List Bytes → List Bytes
  | [] => [[c]]
  | line :: lines => (c :: line) :: lines

/-- The lines of a block, without their ends. -/
def splitCrlf : Bytes → List Bytes
  | [] => [[]]
  | [c] => [[c]]
  | c :: d :: s =>
      if c = cr ∧ d = lf then [] :: splitCrlf s
      else consLine c (splitCrlf (d :: s))

def fieldLines (hdr : Bytes) (firstHeader headerEnd : Nat) : List Bytes :=
  splitCrlf ((hdr.take headerEnd).drop firstHeader)

/-- A line around its first colon. -/
def fieldOf (line : Bytes) : Option (Bytes × Bytes) :=
  (memchr colon line).map fun n => (line.take n, line.drop (n + 1))

/-- A token, directly followed by a colon. -/
def isField (line : Bytes) : Bool :=
  match fieldOf line with
  | none => false
  | some field => field.1 ≠ [] && field.1.all tchar

def valueOf (name line : Bytes) : Option Bytes :=
  (fieldOf line).bind fun field =>
    if field.1.map lower = name.map lower then some field.2 else none

def valuesOf (name : Bytes) (lines : List Bytes) : List Bytes := lines.filterMap (valueOf name)

def IsPort (port : Bytes) : Prop :=
  port ≠ [] ∧ (∀ c ∈ port, isDigit c = true) ∧ 1 ≤ Decimal.value port ∧ Decimal.value port ≤ 65535

def IsLoopback (name : Bytes) : Prop :=
  name.map lower = localhost ∨ name = loopback4 ∨ name = loopback6

def LoopbackAuthority (s : Bytes) : Prop :=
  IsLoopback s ∨ ∃ name port, s = name ++ colon :: port ∧ IsLoopback name ∧ IsPort port

def LoopbackOrigin (s : Bytes) : Prop :=
  ∃ scheme authority, s = scheme ++ authority ∧
    (scheme.map lower = httpScheme ∨ scheme.map lower = httpsScheme) ∧ LoopbackAuthority authority

/-- A number in decimal that a `size_t` holds. -/
def IsLength (s : Bytes) (length : Nat) : Prop :=
  s ≠ [] ∧ (∀ c ∈ s, isDigit c = true) ∧ Decimal.value s = length ∧ length < 2 ^ 64

/-- The one interpretation of a block whose body has the given length. -/
structure Unambiguous (lines : List Bytes) (length : Nat) : Prop where
  fields : ∀ line ∈ lines, isField line = true
  plain : valuesOf transferEncoding lines = []
  framed : (valuesOf contentLength lines = [] ∧ length = 0) ∨
    ∃ value, valuesOf contentLength lines = [value] ∧ IsLength (trim value) length
  host : ∃ value, valuesOf host lines = [value] ∧ LoopbackAuthority (trim value)
  origins : ∀ value ∈ valuesOf origin lines, LoopbackOrigin (trim value)

/-- An origin with a blank right behind its scheme. -/
def blankBehindScheme (value : Bytes) : Bool :=
  (((trim value).drop (schemeLength (trim value))).head?.map blank).getD false

/-! ## The lines of a block -/

theorem split_cons {c : UInt8} {s : Bytes} (here : ¬(c = cr ∧ s.head? = some lf)) :
    splitCrlf (c :: s) = consLine c (splitCrlf s) := by
  cases s with
  | nil => rfl
  | cons d s =>
      rw [splitCrlf, if_neg]
      simpa using here

/-- The search for a line's end finds what ends the first line. -/
theorem find_crlf_split (block rest : Bytes) {n : Nat}
    (found : findCrlf (block ++ cr :: lf :: rest) = some n) :
    (n = block.length ∧ splitCrlf block = [block]) ∨
      ∃ line more, block = line ++ cr :: lf :: more ∧ n = line.length ∧
        splitCrlf block = line :: splitCrlf more := by
  induction block generalizing n with
  | nil =>
      have here : findCrlf (cr :: lf :: rest) = some 0 := rfl
      rw [List.nil_append, here] at found
      exact Or.inl ⟨(Option.some.inj found).symm, rfl⟩
  | cons c block induction =>
      rw [List.cons_append, findCrlf] at found
      by_cases zero : c = 0
      · rw [if_pos zero] at found
        cases found
      rw [if_neg zero] at found
      by_cases ends : c = cr ∧ (block ++ cr :: lf :: rest).head? = some lf
      · rw [if_pos ends] at found
        obtain ⟨isCr, isLf⟩ := ends
        cases block with
        | nil => cases isLf
        | cons d block =>
            have isLf : d = lf := Option.some.inj isLf
            refine Or.inr ⟨[], block, ?_, (Option.some.inj found).symm, ?_⟩
            · rw [isCr, isLf]
              rfl
            · rw [splitCrlf, if_pos ⟨isCr, isLf⟩]
      · rw [if_neg ends] at found
        obtain ⟨m, later, rfl⟩ := Option.map_eq_some_iff.mp found
        have inside : ¬(c = cr ∧ block.head? = some lf) := by
          rintro ⟨isCr, isLf⟩
          apply ends
          cases block with
          | nil => cases isLf
          | cons d block => exact ⟨isCr, isLf⟩
        rw [split_cons inside]
        rcases induction later with ⟨size, last⟩ | ⟨line, more, shape, size, lines⟩
        · rw [last, size]
          exact Or.inl ⟨rfl, rfl⟩
        · refine Or.inr ⟨c :: line, more, ?_, ?_, ?_⟩
          · rw [shape]
            rfl
          · rw [size]
            rfl
          · rw [lines]
            rfl

/-- The walk takes the lines of the block in their order, up to an empty one at its end. -/
theorem each_line_folds {σ : Type} {step : σ → Bytes → Option σ}
    (quiet : ∀ state, step state [] = some state) (fuel : Nat) (block rest : Bytes)
    (enough : block.length ≤ fuel) {state last : σ}
    (walked : eachLine step fuel block.length (block ++ cr :: lf :: rest) state = some last) :
    (splitCrlf block).foldlM step state = some last := by
  have empty (state : σ) : (splitCrlf []).foldlM step state = some state := by
    rw [splitCrlf, List.foldlM_cons, quiet]
    rfl
  induction fuel generalizing block state with
  | zero =>
      have nothing : block = [] := List.eq_nil_of_length_eq_zero (by omega)
      rw [nothing, empty]
      exact walked
  | succ fuel induction =>
      rw [eachLine] at walked
      by_cases over_ : block.length = 0
      · rw [if_pos over_] at walked
        rw [List.eq_nil_of_length_eq_zero over_, empty]
        exact walked
      rw [if_neg over_] at walked
      cases found : findCrlf (block ++ cr :: lf :: rest) with
      | none => simp [found] at walked
      | some n =>
          simp only [found] at walked
          rcases find_crlf_split block rest found with
            ⟨size, single⟩ | ⟨line, more, shape, size, lines⟩
          · rw [if_neg (by omega), size, List.take_left] at walked
            obtain ⟨middle, stepped, after⟩ := Option.bind_eq_some_iff.mp walked
            rw [single, List.foldlM_cons, stepped]
            have none_left : block.length - (block.length + 2) = 0 := by omega
            rw [none_left] at after
            have same : middle = last := by
              cases fuel with
              | zero => exact Option.some.inj after
              | succ fuel => exact Option.some.inj after
            rw [same]
            rfl
          · have long : block.length = line.length + (2 + more.length) := by
              rw [shape, List.length_append, List.length_cons, List.length_cons]
              omega
            have room : block.length - (n + 2) = more.length := by omega
            have again : block ++ cr :: lf :: rest = line ++ ([cr, lf] ++ (more ++ cr :: lf :: rest)) := by
              rw [shape]
              simp
            have behind : (block ++ cr :: lf :: rest).drop (n + 2) = more ++ cr :: lf :: rest := by
              rw [again, size, ← List.drop_drop, List.drop_left]
              rfl
            have front : (block ++ cr :: lf :: rest).take n = line := by
              rw [again, size, List.take_left]
            rw [if_neg (by omega), front, behind, room] at walked
            obtain ⟨middle, stepped, after⟩ := Option.bind_eq_some_iff.mp walked
            rw [lines, List.foldlM_cons, stepped]
            exact induction more (by omega) after

theorem header_lines_fold {σ : Type} {step : σ → Bytes → Option σ}
    (quiet : ∀ state, step state [] = some state) {hdr : Bytes} {firstHeader headerEnd : Nat}
    (ends : [cr, lf] <+: hdr.drop headerEnd) {state last : σ}
    (walked : headerLines step hdr firstHeader headerEnd state = some last) :
    (fieldLines hdr firstHeader headerEnd).foldlM step state = some last := by
  obtain ⟨rest, ending⟩ := ends
  by_cases inside : firstHeader ≤ headerEnd
  · have within : headerEnd ≤ hdr.length := by
      by_contra beyond
      rw [List.drop_eq_nil_of_le (by omega)] at ending
      cases ending
    have size : ((hdr.take headerEnd).drop firstHeader).length = headerEnd - firstHeader := by
      rw [List.length_drop, List.length_take, Nat.min_eq_left within]
    have buffer : hdr.drop firstHeader =
        (hdr.take headerEnd).drop firstHeader ++ cr :: lf :: rest := by
      have whole := List.take_append_drop headerEnd hdr
      rw [← ending] at whole
      have front : firstHeader ≤ (hdr.take headerEnd).length := by
        rw [List.length_take, Nat.min_eq_left within]
        exact inside
      conv_lhs => rw [← whole]
      rw [List.drop_append_of_le_length front]
      rfl
    unfold headerLines at walked
    rw [buffer, ← size] at walked
    exact each_line_folds quiet _ _ _ (Nat.le_refl _) walked
  · have nothing : (hdr.take headerEnd).drop firstHeader = [] := by
      apply List.drop_eq_nil_of_le
      rw [List.length_take]
      omega
    unfold headerLines at walked
    rw [show headerEnd - firstHeader = 0 by omega] at walked
    rw [fieldLines, nothing, splitCrlf, List.foldlM_cons, quiet]
    exact walked

/-! ## Names and values -/

theorem ci_ncmp_cons (d c : UInt8) (s name : Bytes) (n : Nat) :
    ciNcmp (d :: s) (c :: name) (n + 1) =
      if lower d = lower c then if lower d = 0 then 0 else ciNcmp s name n
      else ((lower d).toNat : Int) - (lower c).toNat := by
  rw [ciNcmp]
  exact ite_not _ _ _

theorem ci_ncmp_zero {name s : Bytes} (nul : ∀ c ∈ name, lower c ≠ 0)
    (same : ciNcmp s name name.length = 0) (long : name.length ≤ s.length) :
    (s.take name.length).map lower = name.map lower := by
  induction name generalizing s with
  | nil => rfl
  | cons c name induction =>
      cases s with
      | nil => exact absurd long (by simp)
      | cons d s =>
          rw [List.length_cons, ci_ncmp_cons] at same
          have some_ := nul c List.mem_cons_self
          by_cases equal : lower d = lower c
          · rw [if_pos equal, if_neg (by rw [equal]; exact some_)] at same
            have rest := induction (fun e inside => nul e (List.mem_cons_of_mem c inside)) same
              (by simpa using long)
            rw [List.length_cons, List.take_succ_cons, List.map_cons, List.map_cons, equal, rest]
          · rw [if_neg equal] at same
            have apart : (lower d).toNat ≠ (lower c).toNat := fun h => equal (UInt8.toNat_inj.mp h)
            omega

theorem ci_ncmp_of_same {name s : Bytes} (same : (s.take name.length).map lower = name.map lower) :
    ciNcmp s name name.length = 0 := by
  induction name generalizing s with
  | nil => rfl
  | cons c name induction =>
      cases s with
      | nil => cases same
      | cons d s =>
          rw [List.length_cons, List.take_succ_cons, List.map_cons, List.map_cons] at same
          obtain ⟨head, rest⟩ := List.cons.inj same
          rw [List.length_cons, ci_ncmp_cons, if_pos head, induction rest, ite_self]

theorem memchr_length {c : UInt8} {s : Bytes} {n : Nat} (found : memchr c s = some n) :
    n < s.length := by
  obtain ⟨bound, _⟩ := List.findIdx?_eq_some_iff_getElem.mp found
  exact bound

theorem memchr_split {c : UInt8} {s : Bytes} {n : Nat} (found : memchr c s = some n) :
    s = s.take n ++ c :: s.drop (n + 1) := by
  obtain ⟨bound, here, _⟩ := List.findIdx?_eq_some_iff_getElem.mp found
  have byte : s[n] = c := by simpa using here
  conv_lhs => rw [← List.take_append_drop n s, List.drop_eq_getElem_cons bound, byte]

theorem named_iff {name line : Bytes} {n : Nat} (nul : ∀ c ∈ name, lower c ≠ 0)
    (found : memchr colon line = some n) :
    named name line n = true ↔ (line.take n).map lower = name.map lower := by
  have inside := memchr_length found
  rw [named, Bool.and_eq_true, beq_iff_eq, beq_iff_eq]
  constructor
  · rintro ⟨size, same⟩
    rw [size]
    exact ci_ncmp_zero nul same (by omega)
  · intro same
    have size : n = name.length := by
      have lengths := congrArg List.length same
      rw [List.length_map, List.length_map, List.length_take] at lengths
      omega
    rw [size] at same
    exact ⟨size, ci_ncmp_of_same same⟩

theorem value_of_absent (name : Bytes) {line : Bytes} (found : memchr colon line = none) :
    valueOf name line = none := by
  rw [valueOf, fieldOf, found]
  rfl

theorem value_of_found {name line : Bytes} {n : Nat} (nul : ∀ c ∈ name, lower c ≠ 0)
    (found : memchr colon line = some n) :
    valueOf name line = if named name line n = true then some (line.drop (n + 1)) else none := by
  rw [valueOf, fieldOf, found, Option.map_some, Option.bind_some]
  by_cases same : (line.take n).map lower = name.map lower
  · rw [if_pos same, if_pos ((named_iff nul found).mpr same)]
  · rw [if_neg same, if_neg]
    intro yes
    exact same ((named_iff nul found).mp yes)

theorem values_cons (name line : Bytes) (lines : List Bytes) :
    valuesOf name (line :: lines) = (valueOf name line).toList ++ valuesOf name lines := by
  rw [valuesOf, List.filterMap_cons]
  cases valueOf name line with
  | none => rfl
  | some value => rfl

/-! ## The length of the body -/

theorem trim_between {front s back : Bytes} (before : ∀ c ∈ front, blank c = true)
    (after : ∀ c ∈ back, blank c = true) (solid : ∀ c ∈ s, blank c = false) :
    trim (front ++ (s ++ back)) = s := by
  have leading : (front ++ (s ++ back)).dropWhile blank = (s ++ back).dropWhile blank :=
    List.dropWhile_append_of_pos before
  rw [trim, leading]
  cases s with
  | nil =>
      rw [List.nil_append, List.dropWhile_eq_nil_iff.mpr after]
      rfl
  | cons c s =>
      have first : blank c = false := solid c List.mem_cons_self
      rw [List.cons_append, List.dropWhile_cons_of_neg (by simp [first]), ← List.cons_append,
        List.rdropWhile, List.reverse_append]
      have trailing : (back.reverse ++ (c :: s).reverse).dropWhile blank =
          (c :: s).reverse.dropWhile blank := by
        apply List.dropWhile_append_of_pos
        intro d inside
        exact after d (List.mem_reverse.mp inside)
      have kept : (c :: s).reverse.dropWhile blank = (c :: s).reverse := by
        apply List.dropWhile_eq_self_iff.mpr
        intro some_
        have inside := List.getElem_mem (l := (c :: s).reverse) some_
        rw [solid _ (List.mem_reverse.mp inside)]
        exact Bool.false_ne_true
      rw [trailing, kept, List.reverse_reverse]

theorem digit_below {c : UInt8} (digit : isDigit c = true) : c.toNat - 48 ≤ 9 := by
  simp only [isDigit, Bool.and_eq_true, decide_eq_true_eq, UInt8.le_iff_toNat_le] at digit
  simp at digit
  omega

theorem digit_solid {c : UInt8} (digit : isDigit c = true) : blank c = false := by
  simp only [isDigit, Bool.and_eq_true, decide_eq_true_eq, UInt8.le_iff_toNat_le] at digit
  simp only [blank, Bool.or_eq_false_iff, beq_eq_false_iff_ne, ne_eq, ← UInt8.toNat_inj]
  simp at digit ⊢
  omega

/-- The check in front of each digit keeps the product and the sum in a `size_t`. -/
theorem length_loop_reads {value last : Nat} {s rest : Bytes} (small : value < 2 ^ 64)
    (read : lengthLoop value s = some (last, rest)) :
    last < 2 ^ 64 ∧ ∃ digits, s = digits ++ rest ∧ (∀ c ∈ digits, isDigit c = true) ∧
      last = digits.foldl (fun sum c => sum * 10 + (c.toNat - 48)) value := by
  induction s generalizing value with
  | nil =>
      cases read
      exact ⟨small, [], rfl, by simp, rfl⟩
  | cons c s induction =>
      rw [lengthLoop] at read
      by_cases digit : isDigit c = true
      · rw [if_pos digit] at read
        by_cases wide : value > (2 ^ 64 - 1 - (c.toNat - 48)) / 10
        · rw [if_pos wide] at read
          cases read
        · rw [if_neg wide] at read
          have nine := digit_below digit
          have fits : value * 10 + (c.toNat - 48) < 2 ^ 64 := by omega
          rw [Nat.mod_eq_of_lt fits] at read
          obtain ⟨below, digits, shape, all, sum⟩ := induction fits read
          refine ⟨below, c :: digits, ?_, ?_, sum⟩
          · rw [shape]
            rfl
          · intro d inside
            rcases List.mem_cons.mp inside with here | later
            · rw [here]
              exact digit
            · exact all d later
      · rw [if_neg digit] at read
        cases read
        exact ⟨small, [], rfl, by simp, rfl⟩

theorem length_value_reads {text : Bytes} {length : Nat} (read : lengthValue text = some length) :
    IsLength (trim text) length := by
  unfold lengthValue at read
  obtain ⟨⟨last, rest⟩, scanned, checked⟩ := Option.bind_eq_some_iff.mp read
  obtain ⟨below, digits, shape, all, sum⟩ := length_loop_reads (by decide) scanned
  have none_ := List.takeWhile_append_dropWhile (p := blank) (l := text)
  by_cases empty : rest.length = (text.dropWhile blank).length
  · simp only [if_pos empty] at checked
    cases checked
  by_cases junk : rest.dropWhile blank ≠ []
  · simp only [if_neg empty, if_pos junk] at checked
    cases checked
  simp only [if_neg empty, if_neg junk] at checked
  have size : last = length := Option.some.inj checked
  have blanks : ∀ c ∈ rest, blank c = true := List.dropWhile_eq_nil_iff.mp (not_not.mp junk)
  have trimmed : trim text = digits := by
    rw [← none_, shape]
    exact trim_between (fun c inside => List.mem_takeWhile_imp inside) blanks
      fun c inside => digit_solid (all c inside)
  rw [trimmed, ← size]
  refine ⟨?_, all, sum.symm, below⟩
  intro nothing
  rw [nothing] at shape
  exact empty (congrArg List.length shape.symm)

/-! ## Authorities -/

theorem port_loop_reads {value last : Nat} {port : Bytes} (read : portLoop value port = some last) :
    (∀ c ∈ port, isDigit c = true) ∧
      last = port.foldl (fun sum c => sum * 10 + (c.toNat - 48)) value := by
  induction port generalizing value with
  | nil =>
      cases read
      exact ⟨by simp, rfl⟩
  | cons c port induction =>
      rw [portLoop] at read
      by_cases digit : isDigit c = true
      · rw [if_pos digit] at read
        obtain ⟨all, sum⟩ := induction read
        refine ⟨?_, sum⟩
        intro d inside
        rcases List.mem_cons.mp inside with here | later
        · rw [here]
          exact digit
        · exact all d later
      · rw [if_neg digit] at read
        cases read

theorem port_fine {port : Bytes} (fine : portFine port = true) : IsPort port := by
  rw [portFine] at fine
  by_cases size : port.length = 0 ∨ 5 < port.length
  · rw [if_pos size] at fine
    cases fine
  rw [if_neg size] at fine
  cases read : portLoop 0 port with
  | none => simp [read] at fine
  | some value =>
      simp only [read, Bool.and_eq_true, decide_eq_true_eq] at fine
      obtain ⟨all, sum⟩ := port_loop_reads read
      have same : Decimal.value port = value := sum.symm
      rw [IsPort, same]
      refine ⟨?_, all, fine⟩
      intro nothing
      exact size (Or.inl (congrArg List.length nothing))

theorem lower_letters {text : Bytes} (letters : text.all (fun c => c != 0) = true) :
    ∀ c ∈ text, lower c ≠ 0 := by
  intro c inside nothing
  have letter : c ≠ 0 := bne_iff_ne.mp (List.all_eq_true.mp letters c inside)
  rw [lower] at nothing
  split_ifs at nothing with upper
  · simp only [UInt8.le_iff_toNat_le, ← UInt8.toNat_inj, UInt8.toNat_add] at upper nothing
    simp at upper nothing
    omega
  · exact letter nothing

theorem loopback_host {name : Bytes} (local_ : loopbackHost name = true) : IsLoopback name := by
  rw [loopbackHost, Bool.or_eq_true, Bool.or_eq_true, Bool.and_eq_true, beq_iff_eq, beq_iff_eq,
    beq_iff_eq, beq_iff_eq] at local_
  rcases local_ with (⟨size, same⟩ | four) | six
  · have nul : ∀ c ∈ localhost, lower c ≠ 0 := lower_letters rfl
    have read : (name.take localhost.length).map lower = localhost.map lower :=
      ci_ncmp_zero nul same (by rw [size]; decide)
    rw [List.take_of_length_le (by rw [size]; decide)] at read
    exact Or.inl read
  · exact Or.inr (Or.inl four)
  · exact Or.inr (Or.inr six)

/-- A split authority is its host alone or the host, a colon and the port. -/
theorem split_authority_shape {s name : Bytes} {port : Option Bytes}
    (split : splitAuthority s = some (name, port)) :
    (port = none ∧ s = name) ∨ ∃ text, port = some text ∧ s = name ++ colon :: text := by
  unfold splitAuthority at split
  split_ifs at split with bracket
  · obtain ⟨close, found, rest⟩ := Option.bind_eq_some_iff.mp split
    have whole := List.take_append_drop (close + 1) s
    cases behind : s.drop (close + 1) with
    | nil =>
        simp only [behind] at rest
        obtain ⟨sameName, samePort⟩ := Prod.mk.inj (Option.some.inj rest)
        rw [behind, List.append_nil] at whole
        exact Or.inl ⟨samePort.symm, by rw [← sameName, whole]⟩
    | cons c text =>
        simp only [behind] at rest
        by_cases other : c ≠ colon
        · rw [if_pos other] at rest
          cases rest
        · rw [if_neg other] at rest
          obtain ⟨sameName, samePort⟩ := Prod.mk.inj (Option.some.inj rest)
          rw [behind, not_not.mp other] at whole
          exact Or.inr ⟨text, samePort.symm, by rw [← sameName, whole]⟩
  · cases found : memchr colon s with
    | none =>
        simp only [found] at split
        obtain ⟨sameName, samePort⟩ := Prod.mk.inj (Option.some.inj split)
        exact Or.inl ⟨samePort.symm, sameName⟩
    | some n =>
        simp only [found] at split
        obtain ⟨sameName, samePort⟩ := Prod.mk.inj (Option.some.inj split)
        refine Or.inr ⟨s.drop (n + 1), samePort.symm, ?_⟩
        rw [← sameName]
        exact memchr_split found

theorem local_authority_reads {text : Bytes} (local_ : localAuthority text = true) :
    LoopbackAuthority (trim text) := by
  rw [localAuthority] at local_
  cases split : splitAuthority (trim text) with
  | none => simp [split] at local_
  | some parts =>
      obtain ⟨name, port⟩ := parts
      simp only [split] at local_
      by_cases foreign : ¬loopbackHost name = true
      · rw [if_pos foreign] at local_
        cases local_
      rw [if_neg foreign] at local_
      have loopback := loopback_host (not_not.mp foreign)
      rcases split_authority_shape split with ⟨absent, shape⟩ | ⟨number, present, shape⟩
      · rw [shape]
        exact Or.inl loopback
      · rw [present] at local_
        exact Or.inr ⟨name, number, shape, loopback, port_fine local_⟩

theorem lower_blank {c : UInt8} (white : blank c = true) : lower c = c := by
  rw [blank, Bool.or_eq_true, beq_iff_eq, beq_iff_eq] at white
  rcases white with space | tab
  · rw [space]
    rfl
  · rw [tab]
    rfl

/-- A loopback host begins with a byte that is no blank. -/
theorem loopback_solid {s : Bytes} (authority : LoopbackAuthority s) :
    ∃ c rest, s = c :: rest ∧ blank c = false := by
  have host_ {name : Bytes} (loopback : IsLoopback name) :
      ∃ c rest, name = c :: rest ∧ blank c = false := by
    rcases loopback with letters | four | six
    · cases name with
      | nil => cases letters
      | cons c rest =>
          refine ⟨c, rest, rfl, ?_⟩
          cases white : blank c with
          | false => rfl
          | true =>
              have first := (List.cons.inj letters).1
              rw [lower_blank white] at first
              rw [first] at white
              cases white
    · exact ⟨0x31, _, four, rfl⟩
    · exact ⟨0x5b, _, six, rfl⟩
  rcases authority with alone | ⟨name, port, shape, loopback, _⟩
  · exact host_ alone
  · obtain ⟨c, rest, head, solid⟩ := host_ loopback
    refine ⟨c, rest ++ colon :: port, ?_, solid⟩
    rw [shape, head]
    rfl

/-! ## Origins -/

theorem scheme_length_reads {value : Bytes} (some_ : schemeLength value ≠ 0) :
    (value.take (schemeLength value)).map lower = httpScheme ∨
      (value.take (schemeLength value)).map lower = httpsScheme := by
  have plainNul : ∀ c ∈ httpScheme, lower c ≠ 0 := lower_letters rfl
  have secureNul : ∀ c ∈ httpsScheme, lower c ≠ 0 := lower_letters rfl
  unfold schemeLength at some_ ⊢
  split_ifs at some_ ⊢ with plain secure
  · exact Or.inl (ci_ncmp_zero plainNul plain.2 plain.1)
  · exact Or.inr (ci_ncmp_zero secureNul secure.2 secure.1)
  · exact absurd rfl some_

theorem ci_ncmp_front {name scheme : Bytes} (authority : Bytes) (same : scheme.map lower = name)
    (fixed : name.map lower = name) :
    name.length = scheme.length ∧ ciNcmp (scheme ++ authority) name name.length = 0 := by
  have size : name.length = scheme.length := by
    rw [← same, List.length_map]
  refine ⟨size, ci_ncmp_of_same ?_⟩
  rw [List.take_left' size.symm, same, fixed]

theorem scheme_length_of {scheme authority : Bytes}
    (reads : scheme.map lower = httpScheme ∨ scheme.map lower = httpsScheme) :
    schemeLength (scheme ++ authority) = scheme.length := by
  have long : scheme.length ≤ (scheme ++ authority).length := by
    rw [List.length_append]
    omega
  rcases reads with plain | secure
  · obtain ⟨size, same⟩ := ci_ncmp_front authority plain rfl
    rw [schemeLength, if_pos ⟨size.trans_le long, same⟩]
    exact size
  · obtain ⟨size, same⟩ := ci_ncmp_front authority secure rfl
    have other : ¬(7 ≤ (scheme ++ authority).length ∧
        ciNcmp (scheme ++ authority) httpScheme 7 = 0) := by
      rintro ⟨enough, plain⟩
      have nul : ∀ c ∈ httpScheme, lower c ≠ 0 := lower_letters rfl
      have read : ((scheme ++ authority).take 7).map lower = httpScheme :=
        ci_ncmp_zero nul plain enough
      have inside : 7 ≤ scheme.length := size ▸ (by decide)
      rw [List.take_append_of_le_length inside, List.map_take, secure] at read
      cases read
    rw [schemeLength, if_neg other, if_pos ⟨size.trans_le long, same⟩]
    exact size

/-- What is left of a trimmed text behind its front ends as the text does. -/
theorem trim_behind {s front back : Bytes} (shape : trim s = front ++ back)
    (solid : ∀ c, back.head? = some c → blank c = false) : trim back = back := by
  have leading : back.dropWhile blank = back := by
    cases back with
    | nil => rfl
    | cons c back => exact List.dropWhile_cons_of_neg (by simp [solid c rfl])
  rw [trim, leading]
  apply List.rdropWhile_eq_self_iff.mpr
  intro some_
  have whole : front ++ back ≠ [] := by simp [some_]
  have last := List.rdropWhile_last_not blank (s.dropWhile blank) (by
    change trim s ≠ []
    rw [shape]
    exact whole)
  have same : (trim s).getLast (by rw [shape]; exact whole) = back.getLast some_ := by
    simp only [shape]
    exact List.getLast_append_of_ne_nil whole some_
  rw [← same]
  exact last

/-- An accepted origin is a loopback one, except that blanks may stand behind its scheme. -/
theorem origin_fine_iff {text : Bytes} (fine : originFine text = true) :
    LoopbackOrigin (trim text) ↔ blankBehindScheme text = false := by
  rw [originFine, Bool.and_eq_true, decide_eq_true_eq] at fine
  obtain ⟨some_, local_⟩ := fine
  constructor
  · rintro ⟨scheme, authority, shape, reads, loopback⟩
    obtain ⟨c, rest, head, solid⟩ := loopback_solid loopback
    have behind : (trim text).drop (schemeLength (trim text)) = c :: rest := by
      rw [shape, scheme_length_of reads, List.drop_left, head]
    rw [blankBehindScheme, behind]
    exact solid
  · intro solid
    have split := List.take_append_drop (schemeLength (trim text)) (trim text)
    have trimmed : trim ((trim text).drop (schemeLength (trim text))) =
        (trim text).drop (schemeLength (trim text)) := by
      apply trim_behind split.symm
      intro c head
      rw [blankBehindScheme, head] at solid
      exact solid
    refine ⟨_, _, split.symm, scheme_length_reads some_, ?_⟩
    rw [← trimmed]
    exact local_authority_reads local_

/-! ## The two walks -/

theorem host_nul : ∀ c ∈ host, lower c ≠ 0 := lower_letters rfl

theorem origin_nul : ∀ c ∈ origin, lower c ≠ 0 := lower_letters rfl

theorem length_nul : ∀ c ∈ contentLength, lower c ≠ 0 := lower_letters rfl

theorem transfer_nul : ∀ c ∈ transferEncoding, lower c ≠ 0 := lower_letters rfl

theorem framing_line_reads {state next : Framing} {line : Bytes}
    (stepped : framingLine state line = some next) :
    valueOf transferEncoding line = none ∧
      ((valueOf contentLength line = none ∧ next = state) ∨
        (state.sawLength = false ∧ ∃ value length, valueOf contentLength line = some value ∧
          IsLength (trim value) length ∧ next = ⟨true, length⟩)) := by
  unfold framingLine at stepped
  cases found : memchr colon line with
  | none =>
      simp only [found] at stepped
      have absent (name : Bytes) := value_of_absent name found
      exact ⟨absent _, Or.inl ⟨absent _, (Option.some.inj stepped).symm⟩⟩
  | some n =>
      simp only [found] at stepped
      rw [value_of_found transfer_nul found, value_of_found length_nul found]
      by_cases transfer : named transferEncoding line n = true
      · rw [if_pos transfer] at stepped
        cases stepped
      rw [if_neg transfer] at stepped ⊢
      refine ⟨rfl, ?_⟩
      by_cases size : named contentLength line n = true
      · rw [if_pos size] at stepped ⊢
        by_cases seen : state.sawLength = true
        · rw [if_pos seen] at stepped
          cases stepped
        rw [if_neg seen] at stepped
        obtain ⟨length, read, made⟩ := Option.map_eq_some_iff.mp stepped
        have reads := length_value_reads read
        exact Or.inr ⟨Bool.eq_false_iff.mpr seen, _, length, rfl, reads, made.symm⟩
      · rw [if_neg size] at stepped ⊢
        exact Or.inl ⟨rfl, (Option.some.inj stepped).symm⟩

theorem framing_walk_reads {lines : List Bytes} {state last : Framing}
    (walked : lines.foldlM framingLine state = some last) :
    valuesOf transferEncoding lines = [] ∧
      ((valuesOf contentLength lines = [] ∧ last = state) ∨
        (state.sawLength = false ∧ ∃ value length, valuesOf contentLength lines = [value] ∧
          IsLength (trim value) length ∧ last = ⟨true, length⟩)) := by
  induction lines generalizing state with
  | nil => exact ⟨rfl, Or.inl ⟨rfl, (Option.some.inj walked).symm⟩⟩
  | cons line lines induction =>
      rw [List.foldlM_cons] at walked
      obtain ⟨next, stepped, after⟩ := Option.bind_eq_some_iff.mp walked
      obtain ⟨noneHere, here⟩ := framing_line_reads stepped
      obtain ⟨noneLater, later⟩ := induction after
      rw [values_cons, values_cons, noneHere, noneLater]
      refine ⟨rfl, ?_⟩
      rcases here with ⟨absent, same⟩ | ⟨fresh, value, length, present, reads, made⟩
      · rw [absent, Option.toList_none, List.nil_append, ← same]
        exact later
      · rcases later with ⟨absent, same⟩ | ⟨unseen, _⟩
        · rw [present, absent, same, made]
          exact Or.inr ⟨fresh, value, length, rfl, reads, rfl⟩
        · rw [made] at unseen
          cases unseen

theorem authority_line_reads {state next : Authority} {line : Bytes}
    (stepped : authorityLine state line = some next) :
    next.hosts = state.hosts + (valueOf host line).toList.length ∧
      (∀ value ∈ valueOf host line, LoopbackAuthority (trim value)) ∧
      ∀ value ∈ valueOf origin line, originFine value = true := by
  unfold authorityLine at stepped
  cases found : memchr colon line with
  | none =>
      simp only [found] at stepped
      rw [value_of_absent host found, value_of_absent origin found, Option.some.inj stepped]
      exact ⟨rfl, by simp, by simp⟩
  | some n =>
      simp only [found] at stepped
      rw [value_of_found host_nul found, value_of_found origin_nul found]
      by_cases isHost : named host line n = true
      · have notOrigin : ¬named origin line n = true := by
          rw [named, Bool.and_eq_true, beq_iff_eq] at isHost ⊢
          rintro ⟨size, _⟩
          rw [isHost.1] at size
          cases size
        rw [if_pos isHost] at stepped ⊢
        rw [if_neg notOrigin]
        by_cases refused : state.hosts + 1 ≠ 1 ∨ ¬localAuthority (line.drop (n + 1)) = true
        · rw [if_pos refused] at stepped
          cases stepped
        rw [if_neg refused] at stepped
        rw [← Option.some.inj stepped]
        refine ⟨rfl, ?_, by simp⟩
        intro value here
        rw [← Option.some.inj here]
        apply local_authority_reads
        by_contra foreign
        exact refused (Or.inr foreign)
      · rw [if_neg isHost] at stepped ⊢
        by_cases isOrigin : named origin line n = true
        · rw [if_pos isOrigin] at stepped ⊢
          by_cases again : state.origins + 1 ≠ 1
          · rw [if_pos again] at stepped
            cases stepped
          rw [if_neg again] at stepped
          by_cases refused : ¬originFine (line.drop (n + 1)) = true
          · rw [if_pos refused] at stepped
            cases stepped
          rw [if_neg refused] at stepped
          rw [← Option.some.inj stepped]
          refine ⟨rfl, by simp, ?_⟩
          intro value here
          rw [← Option.some.inj here]
          exact not_not.mp refused
        · rw [if_neg isOrigin] at stepped ⊢
          rw [Option.some.inj stepped]
          exact ⟨rfl, by simp, by simp⟩

theorem authority_walk_reads {lines : List Bytes} {state last : Authority}
    (walked : lines.foldlM authorityLine state = some last) :
    last.hosts = state.hosts + (valuesOf host lines).length ∧
      (∀ value ∈ valuesOf host lines, LoopbackAuthority (trim value)) ∧
      ∀ value ∈ valuesOf origin lines, originFine value = true := by
  induction lines generalizing state with
  | nil => exact ⟨congrArg Authority.hosts (Option.some.inj walked).symm, by simp [valuesOf],
      by simp [valuesOf]⟩
  | cons line lines induction =>
      rw [List.foldlM_cons] at walked
      obtain ⟨next, stepped, after⟩ := Option.bind_eq_some_iff.mp walked
      obtain ⟨hostsHere, localHere, originHere⟩ := authority_line_reads stepped
      obtain ⟨hostsLater, localLater, originLater⟩ := induction after
      rw [values_cons, values_cons]
      refine ⟨?_, ?_, ?_⟩
      · rw [hostsLater, hostsHere, List.length_append, Nat.add_assoc]
      · intro value inside
        rcases List.mem_append.mp inside with here | later
        · exact localHere value (Option.mem_toList.mp here)
        · exact localLater value later
      · intro value inside
        rcases List.mem_append.mp inside with here | later
        · exact originHere value (Option.mem_toList.mp here)
        · exact originLater value later

theorem framing_line_quiet (state : Framing) : framingLine state [] = some state := rfl

theorem authority_line_quiet (state : Authority) : authorityLine state [] = some state := rfl

/-- What both checks accept reads one way exactly on proper field lines, with no blank behind the
scheme of an origin. The end of the block stands at a line's end, as callers have it. -/
theorem accepted_unambiguous_iff {hdr : Bytes} {firstHeader headerEnd length : Nat}
    (ends : [cr, lf] <+: hdr.drop headerEnd)
    (framed : parseRequestFraming hdr firstHeader headerEnd = some length)
    (authorised : validateRequestAuthority hdr firstHeader headerEnd = true) :
    Unambiguous (fieldLines hdr firstHeader headerEnd) length ↔
      (∀ line ∈ fieldLines hdr firstHeader headerEnd, isField line = true) ∧
        ∀ value ∈ valuesOf origin (fieldLines hdr firstHeader headerEnd),
          blankBehindScheme value = false := by
  obtain ⟨framing, walked, stored⟩ := Option.map_eq_some_iff.mp framed
  obtain ⟨plain, lengths⟩ :=
    framing_walk_reads (header_lines_fold framing_line_quiet ends walked)
  rw [validateRequestAuthority] at authorised
  cases checked : headerLines authorityLine hdr firstHeader headerEnd ⟨0, 0⟩ with
  | none => simp [checked] at authorised
  | some authority =>
      simp only [checked, beq_iff_eq] at authorised
      obtain ⟨count, locals, origins⟩ :=
        authority_walk_reads (header_lines_fold authority_line_quiet ends checked)
      constructor
      · intro reading
        refine ⟨reading.fields, ?_⟩
        intro value inside
        exact (origin_fine_iff (origins value inside)).mp (reading.origins value inside)
      · rintro ⟨fields, solid⟩
        constructor
        · exact fields
        · exact plain
        · rcases lengths with ⟨absent, same⟩ | ⟨_, value, size, present, reads, made⟩
          · rw [same] at stored
            exact Or.inl ⟨absent, stored.symm⟩
          · rw [made] at stored
            rw [← stored]
            exact Or.inr ⟨value, present, reads⟩
        · have one : (valuesOf host (fieldLines hdr firstHeader headerEnd)).length = 1 := by
            rw [authorised] at count
            simpa using count.symm
          obtain ⟨value, single⟩ := List.length_eq_one_iff.mp one
          refine ⟨value, single, locals value ?_⟩
          rw [single]
          exact List.mem_singleton.mpr rfl
        · intro value inside
          exact (origin_fine_iff (origins value inside)).mpr (solid value inside)

theorem head_ends {hdr : Bytes} {headerEnd : Nat} (found : findHead hdr = some headerEnd) :
    [cr, lf] <+: hdr.drop headerEnd := by
  induction hdr generalizing headerEnd with
  | nil => cases found
  | cons c hdr induction =>
      rw [findHead] at found
      split_ifs at found with zero here
      · cases found
        exact List.IsPrefix.trans ⟨[cr, lf], rfl⟩ here
      · obtain ⟨n, later, rfl⟩ := Option.map_eq_some_iff.mp found
        exact induction later

/-- A request with a `Host`, an `Origin` and a `Content-Length`. -/
def localRequest : Bytes :=
  [0x47, 0x45, 0x54, 0x20, 0x2f, 0x20, 0x48, 0x54, 0x54, 0x50, 0x2f, 0x31, 0x2e, 0x31, 0x0d, 0x0a,
    0x48, 0x6f, 0x73, 0x74, 0x3a, 0x20, 0x6c, 0x6f, 0x63, 0x61, 0x6c, 0x68, 0x6f, 0x73, 0x74, 0x3a,
    0x38, 0x30, 0x0d, 0x0a, 0x4f, 0x72, 0x69, 0x67, 0x69, 0x6e, 0x3a, 0x20, 0x68, 0x74, 0x74, 0x70,
    0x3a, 0x2f, 0x2f, 0x5b, 0x3a, 0x3a, 0x31, 0x5d, 0x0d, 0x0a, 0x43, 0x6f, 0x6e, 0x74, 0x65, 0x6e,
    0x74, 0x2d, 0x4c, 0x65, 0x6e, 0x67, 0x74, 0x68, 0x3a, 0x20, 0x35, 0x0d, 0x0a, 0x0d, 0x0a]

theorem local_request_unambiguous : Unambiguous (fieldLines localRequest 16 75) 5 :=
  (accepted_unambiguous_iff (head_ends rfl) rfl rfl).mpr (by decide +kernel)

/-- A request with a blank between `Transfer-Encoding` and its colon. -/
def paddedRequest : Bytes :=
  [0x50, 0x4f, 0x53, 0x54, 0x20, 0x2f, 0x20, 0x48, 0x54, 0x54, 0x50, 0x2f, 0x31, 0x2e, 0x31, 0x0d,
    0x0a, 0x48, 0x6f, 0x73, 0x74, 0x3a, 0x20, 0x6c, 0x6f, 0x63, 0x61, 0x6c, 0x68, 0x6f, 0x73, 0x74,
    0x0d, 0x0a, 0x54, 0x72, 0x61, 0x6e, 0x73, 0x66, 0x65, 0x72, 0x2d, 0x45, 0x6e, 0x63, 0x6f, 0x64,
    0x69, 0x6e, 0x67, 0x20, 0x3a, 0x20, 0x63, 0x68, 0x75, 0x6e, 0x6b, 0x65, 0x64, 0x0d, 0x0a, 0x43,
    0x6f, 0x6e, 0x74, 0x65, 0x6e, 0x74, 0x2d, 0x4c, 0x65, 0x6e, 0x67, 0x74, 0x68, 0x3a, 0x20, 0x35,
    0x0d, 0x0a, 0x0d, 0x0a]

theorem padded_name_skipped :
    parseRequestFraming paddedRequest 17 80 = some 5 ∧
      validateRequestAuthority paddedRequest 17 80 = true ∧
        ¬Unambiguous (fieldLines paddedRequest 17 80) 5 := by
  refine ⟨rfl, rfl, ?_⟩
  intro reading
  have improper : (fieldLines paddedRequest 17 80).all isField = false := rfl
  rw [List.all_eq_true.mpr reading.fields] at improper
  cases improper

end GridcoreRunner.Http
