import GridcoreRunner.Gguf.Header
import Mathlib.Data.List.Infix

/-!
# What the header parser has read

Every string and every array of a parsed header stands in the file, the numbers of a
descriptor are 64-bit numbers, and the parser takes no more steps than the file has bytes
and a constant.
-/

namespace GridcoreRunner.Gguf

open GridcoreRunner.Reader
open GridcoreRunner.Reader.Parser

set_option autoImplicit false

/-! ## Steps -/

theorem paced_rdUInt (size : Nat) : Paced (rdUInt size) ((size : Int) - 1) 1 := by
  apply ((paced_rd size).bind fun read => paced_pure ((read.map leNat).getD 0)).weaken
  · omega
  · omega

theorem paced_take (n : Nat) : Paced (take n) (-1) 1 := by
  apply ((paced_rd n).bind fun read => paced_ofOption read).weaken
  · omega
  · omega

theorem paced_rdStr : Paced rdStr 6 2 :=
  (paced_rdUInt 8).bind fun n => Paced.require fun _ => paced_take n

theorem stops_rdStr : Stops rdStr := by
  intro file c bad
  have first : rd 8 file c = (some none, { c with ok := false, steps := c.steps + 1 }) := by
    unfold rd
    rw [bad]
    rfl
  have number : rdU64 file c = (some 0, { c with ok := false, steps := c.steps + 1 }) := by
    show (rd 8 >>= _) file c = _
    rw [bind_eq, first]
    rfl
  show ((rdU64 >>= _) file c).1 = none
  rw [bind_eq, number]
  rfl

theorem paced_whenGood (value : Value) : Paced (whenGood value) 0 0 :=
  paced_good.bind fun _ => (paced_pure value).ite paced_fail

theorem paced_rdPacked (arrType : ValType) (arrN : Nat) : Paced (rdPacked arrType arrN) (-1) 4 := by
  apply Paced.require
  intro _
  apply (paced_position.bind fun start => (paced_take _).bind fun bytes => paced_whenGood _).weaken
  · omega
  · omega

theorem paced_rdElements (arrType : ValType) (arrN : Nat) :
    Paced (rdElements arrType arrN) (-1) 4 := by
  cases arrType with
  | arr => exact paced_fail.weaken (by omega) (by omega)
  | str =>
      apply ((paced_rdStr.timesWithin stops_rdStr (by omega) 8 arrN).bind
        fun strings => paced_whenGood _).weaken
      · omega
      · omega
  | _ => exact paced_rdPacked _ arrN

theorem paced_rdArray : Paced rdArray 0 6 := by
  apply ((paced_rdUInt 4).bind fun code => (paced_rdUInt 8).bind fun arrN =>
    (paced_ofOption _).bind fun arrType => paced_rdElements arrType arrN).weaken
  · omega
  · omega

theorem paced_scalar (size : Nat) (positive : 0 < size) (value : Nat → Value) :
    Paced (rdUInt size >>= fun n => whenGood (value n)) 0 6 := by
  apply ((paced_rdUInt size).bind fun n => paced_whenGood (value n)).weaken
  · omega
  · omega

theorem paced_rdKvValue (type : ValType) : Paced (rdKvValue type) 0 6 := by
  cases type with
  | str =>
      apply (paced_rdStr.bind fun s => paced_pure _).weaken
      · omega
      · omega
  | arr => exact paced_rdArray
  | _ => exact paced_scalar _ (by decide) _

theorem paced_rdKv : Paced rdKv 0 9 := by
  apply (paced_rdStr.bind fun key => (paced_rdUInt 4).bind fun code =>
    (paced_ofOption _).bind fun type => (paced_rdKvValue type).bind fun value =>
      paced_pure _).weaken
  · omega
  · omega

theorem paced_rdTensor : Paced rdTensor 0 9 := by
  have dims : ∀ nDims : Nat, nDims ≠ 0 ∧ nDims ≤ 4 → Paced (times rdU64 nDims) 0 4 := by
    intro nDims few
    apply ((paced_rdUInt 8).timesEach (by omega) nDims).weaken
    · omega
    · omega
  apply (paced_rdStr.bind fun name => (paced_require _).bind fun _ => (paced_rdUInt 4).bind
    fun nDims => Paced.require fun few => (dims nDims few).bind fun _ => (paced_rdUInt 4).bind
      fun type => (paced_rdUInt 8).bind fun off => paced_pure _).weaken
  · omega
  · omega

theorem paced_rdHeader : Paced rdHeader 0 40 := by
  have kv := paced_rdKv.times (stops_rdStr.bind) (by omega)
  have tensors := paced_rdTensor.times (stops_rdStr.bind) (by omega)
  apply ((paced_rdUInt 4).bind fun magic => (paced_require _).bind fun _ =>
    (paced_rdUInt 4).bind fun version => (paced_require _).bind fun _ =>
    (paced_rdUInt 8).bind fun nTensors => (paced_rdUInt 8).bind fun nKv =>
    (paced_require _).bind fun _ => (kv nKv).bind fun kv => (tensors nTensors).bind fun tensors =>
    paced_good.bind fun fine => (paced_require _).bind fun _ => paced_pure _).weaken
  · omega
  · omega

/-! ## What was read -/

def Value.From (file : Bytes) : Value → Prop
  | .str s => s <:+: file
  | .arrRaw arrType arrN start bytes =>
      start + bytes.length ≤ file.length ∧ bytes = (file.drop start).take bytes.length ∧
        bytes.length = scalarSize arrType * arrN
  | .arrStr strings => ∀ s ∈ strings, s <:+: file
  | _ => True

def Kv.From (file : Bytes) (kv : Kv) : Prop := kv.key <:+: file ∧ kv.value.From file

structure Descriptor.From (file : Bytes) (d : Descriptor) : Prop where
  name : ∃ s, s <:+: file ∧ s.length < nameSize ∧ d.name = cstr s
  dims : 1 ≤ d.nDims ∧ d.nDims ≤ 4
  ne : d.ne.length = 4
  off : d.off ≤ uint64Max

structure Header.From (file : Bytes) (h : Header) : Prop where
  version : 2 ≤ h.version ∧ h.version ≤ 3
  kv : ∀ kv ∈ h.kv, kv.From file
  tensors : ∀ d ∈ h.tensors, d.From file

theorem yields_pure {α : Type} (a : α) : Yields (pure a : Parser α) fun _ b => b = a := by
  constructor
  intro file c b c' _ read
  cases read
  rfl

theorem yields_rdUInt (size : Nat) : Yields (rdUInt size) fun _ n => n < 256 ^ size := by
  constructor
  intro file c n c' _ read
  rcases bind_some.mp read with ⟨answer, last, one, two⟩
  rcases rd_cases size file c with ⟨same, _⟩ | ⟨same, _, room⟩
  · rw [same] at one
    cases one
    cases two
    exact Nat.pow_pos (by decide)
  · rw [same] at one
    cases one
    cases two
    have bound := le_nat_lt ((file.drop c.pos).take size)
    rw [List.length_take, List.length_drop, Nat.min_eq_left room] at bound
    exact bound

/-- What is taken are the bytes at the cursor. -/
theorem take_some {n : Nat} {file bytes : Bytes} {c c' : Cursor}
    (read : take n file c = (some bytes, c')) :
    bytes = (file.drop c.pos).take n ∧ n ≤ file.length - c.pos := by
  rcases bind_some.mp read with ⟨answer, last, one, two⟩
  rcases rd_cases n file c with ⟨same, _⟩ | ⟨same, _, room⟩
  · rw [same] at one
    cases one
    cases two
  · rw [same] at one
    cases one
    cases two
    exact ⟨rfl, room⟩

theorem yields_take (n : Nat) : Yields (take n) fun file bytes => bytes <:+: file := by
  constructor
  intro file c bytes c' _ read
  rw [(take_some read).1]
  exact (List.take_prefix n _).isInfix.trans (List.drop_suffix c.pos file).isInfix

theorem yields_rdStr : Yields rdStr fun file s => s <:+: file := by
  constructor
  intro file c s c' before read
  rcases bind_some.mp read with ⟨n, middle, first, rest⟩
  have inside := (lawful_rdUInt 8).inside file c before
  have named : rdUInt 8 file c = (some n, middle) := first
  rw [named] at inside
  rw [require_bind] at rest
  split_ifs at rest
  · exact (yields_take n).answers file middle s c' inside rest
  · cases rest

theorem yields_whenGood (value : Value) : Yields (whenGood value) fun _ v => v = value := by
  constructor
  intro file c v c' _ read
  rcases bind_some.mp read with ⟨fine, middle, first, rest⟩
  split_ifs at rest
  · cases rest
    rfl
  · cases rest

theorem yields_rdPacked (arrType : ValType) (arrN : Nat) :
    Yields (rdPacked arrType arrN) fun file value => value.From file := by
  apply Yields.require
  intro _
  constructor
  intro file c value c' before read
  rcases bind_some.mp read with ⟨start, middle, first, rest⟩
  cases first
  rcases bind_some.mp rest with ⟨bytes, later, taken, last⟩
  have same := (yields_whenGood _).answers file later value c'
    (by
      have inside := (lawful_take (scalarSize arrType * arrN)).inside file c before
      rw [taken] at inside
      exact inside) last
  have where' := take_some taken
  have counted : bytes.length = scalarSize arrType * arrN := by
    rw [where'.1, List.length_take, List.length_drop]
    omega
  rw [same]
  refine ⟨?_, ?_, counted⟩
  · have here := before.1
    rw [counted]
    have room := where'.2
    show c.pos + _ ≤ _
    omega
  · rw [counted]
    exact where'.1

theorem yields_rdElements (arrType : ValType) (arrN : Nat) :
    Yields (rdElements arrType arrN) fun file value => value.From file := by
  cases arrType with
  | arr =>
      constructor
      intro file c value c' _ read
      cases read
  | str =>
      refine (yields_rdStr.timesWithin lawful_rdStr 8 arrN).bind
        (lawful_rdStr.timesWithin (by decide) rd_str_gains arrN) ?_
      intro strings
      apply (yields_whenGood (.arrStr strings)).weaken
      intro file value same among
      rw [same]
      exact among
  | _ => exact yields_rdPacked _ arrN

theorem yields_rdKvValue (type : ValType) :
    Yields (rdKvValue type) fun file value => value.From file := by
  have scalar : ∀ (size : Nat) (value : Nat → Value), (∀ file n, (value n).From file) →
      Yields (rdUInt size >>= fun n => whenGood (value n)) fun file value => value.From file := by
    intro size value plain
    refine (yields_rdUInt size).bind (lawful_rdUInt size) ?_
    intro n
    apply (yields_whenGood (value n)).weaken
    intro file v same _
    rw [same]
    exact plain file n
  cases type with
  | str =>
      refine yields_rdStr.bind lawful_rdStr ?_
      intro s
      apply (yields_pure (Value.str s)).weaken
      intro file value same inside
      rw [same]
      exact inside
  | arr =>
      constructor
      intro file c value c' before read
      rcases bind_some.mp read with ⟨code, first, one, rest⟩
      rcases bind_some.mp rest with ⟨arrN, second, two, rest⟩
      rcases bind_some.mp rest with ⟨arrType, third, three, rest⟩
      have inside := (lawful_rdUInt 4).inside file c before
      rw [show rdUInt 4 file c = (some code, first) from one] at inside
      have inside' := (lawful_rdUInt 8).inside file first inside
      rw [show rdUInt 8 file first = (some arrN, second) from two] at inside'
      have inside'' := (lawful_ofOption (ValType.ofCode code)).inside file second inside'
      rw [three] at inside''
      exact (yields_rdElements arrType arrN).answers file third value c' inside'' rest
  | _ => exact scalar _ _ fun file n => trivial

theorem yields_rdKv : Yields rdKv fun file kv => kv.From file := by
  refine yields_rdStr.bind lawful_rdStr fun key => ?_
  refine (yields_rdUInt 4).bind (lawful_rdUInt 4) fun code => ?_
  constructor
  intro file c kv c' before read
  rcases bind_some.mp read with ⟨type, middle, one, rest⟩
  rcases bind_some.mp rest with ⟨value, last, two, three⟩
  cases three
  have inside := (lawful_ofOption (ValType.ofCode code)).inside file c before
  rw [one] at inside
  intro _ inside'
  exact ⟨inside', (yields_rdKvValue type).answers file middle value c' inside two⟩

theorem yields_rdTensor : Yields rdTensor fun file d => d.From file := by
  constructor
  intro file c d c' before read
  rcases bind_some.mp read with ⟨name, first, one, rest⟩
  have inside := yields_rdStr.answers file c name first before one
  have after := lawful_rdStr.inside file c before
  rw [one] at after
  rw [require_bind] at rest
  split_ifs at rest with short
  · rcases bind_some.mp rest with ⟨nDims, second, two, rest⟩
    have after' := (lawful_rdUInt 4).inside file first after
    rw [show rdUInt 4 file first = (some nDims, second) from two] at after'
    rw [require_bind] at rest
    split_ifs at rest with few
    · rcases bind_some.mp rest with ⟨dims, third, three, rest⟩
      have after'' := ((lawful_rdUInt 8).times nDims).inside file second after'
      rw [show times (rdUInt 8) nDims file second = (some dims, third) from three] at after''
      rcases bind_some.mp rest with ⟨type, fourth, four, rest⟩
      have after''' := (lawful_rdUInt 4).inside file third after''
      rw [show rdUInt 4 file third = (some type, fourth) from four] at after'''
      rcases bind_some.mp rest with ⟨off, fifth, five, rest⟩
      cases rest
      have counted := times_length three
      have bound := (yields_rdUInt 8).answers file fourth off _ after''' five
      constructor
      · exact ⟨name, inside, short, rfl⟩
      · exact ⟨Nat.pos_of_ne_zero few.1, few.2⟩
      · show (dims ++ List.replicate (4 - nDims) 1).length = 4
        rw [List.length_append, List.length_replicate, counted]
        omega
      · show off ≤ uint64Max
        have size : (256 : Nat) ^ 8 = uint64Max + 1 := by decide
        omega
    · cases rest
  · cases rest

theorem rd_kv_gains : Gains rdKv 8 :=
  rd_str_gains.bind fun _ => (lawful_rdUInt 4).bind fun _ => (lawful_ofOption _).bind
    fun type => (lawful_rdKvValue type).bind fun _ => lawful_pure _

theorem rd_tensor_gains : Gains rdTensor 8 :=
  rd_str_gains.bind fun _ => (lawful_require _).bind fun _ => (lawful_rdUInt 4).bind
    fun nDims => (lawful_require _).bind fun _ => ((lawful_rdUInt 8).times nDims).bind
      fun _ => (lawful_rdUInt 4).bind fun _ => (lawful_rdUInt 8).bind fun _ => lawful_pure _

/-- A parsed header: its reads succeeded, and its two tables stand in the file. -/
theorem rd_header_some {file : Bytes} {h : Header} {c : Cursor}
    (read : rdHeader file Cursor.start = (some h, c)) :
    h.From file ∧ c.ok = true ∧ c.pos ≤ file.length ∧
      8 * (h.kv.length + h.tensors.length) ≤ c.pos := by
  have start : Cursor.start.Inside file.length := ⟨Nat.zero_le _, fun _ inside => by cases inside⟩
  have ends := lawful_rdHeader.inside file Cursor.start start
  rw [read] at ends
  rcases bind_some.mp read with ⟨magic, first, one, rest⟩
  have inside := (lawful_rdUInt 4).inside file Cursor.start start
  rw [show rdUInt 4 file Cursor.start = (some magic, first) from one] at inside
  rw [require_bind] at rest
  split_ifs at rest
  · rcases bind_some.mp rest with ⟨version, second, two, rest⟩
    have inside' := (lawful_rdUInt 4).inside file first inside
    rw [show rdUInt 4 file first = (some version, second) from two] at inside'
    rw [require_bind] at rest
    split_ifs at rest with known
    · rcases bind_some.mp rest with ⟨nTensors, third, three, rest⟩
      have inside'' := (lawful_rdUInt 8).inside file second inside'
      rw [show rdUInt 8 file second = (some nTensors, third) from three] at inside''
      rcases bind_some.mp rest with ⟨nKv, fourth, four, rest⟩
      have inside''' := (lawful_rdUInt 8).inside file third inside''
      rw [show rdUInt 8 file third = (some nKv, fourth) from four] at inside'''
      rw [require_bind] at rest
      split_ifs at rest
      · rcases bind_some.mp rest with ⟨kv, fifth, five, rest⟩
        have between := (lawful_rdKv.times nKv).inside file fourth inside'''
        rw [five] at between
        rcases bind_some.mp rest with ⟨tensors, sixth, six, rest⟩
        rcases bind_some.mp rest with ⟨fine, seventh, seven, rest⟩
        cases seven
        rw [require_bind] at rest
        split_ifs at rest with good
        · cases rest
          have early : fifth.ok = true := (lawful_rdTensor.times nTensors).ok_before six good
          have pairs := rd_kv_gains.times lawful_rdKv nKv file fourth kv fifth five early
          have descriptors := rd_tensor_gains.times lawful_rdTensor nTensors file fifth tensors _
            six good
          have counted := times_length five
          have counted' := times_length six
          refine ⟨?_, good, ends.1, ?_⟩
          · constructor
            · exact known
            · exact (yields_rdKv.times lawful_rdKv nKv).answers file fourth kv fifth inside''' five
            · exact (yields_rdTensor.times lawful_rdTensor nTensors).answers file fifth tensors _
                between six
          · show 8 * (kv.length + tensors.length) ≤ _
            rw [counted, counted']
            omega
        · cases rest
      · cases rest
    · cases rest
  · cases rest

/-- Whatever the file, the parser reads inside it and is done after a step a byte. -/
theorem rd_header_bounded (file : Bytes) :
    (∀ extent ∈ (rdHeader file Cursor.start).2.reads, extent.1 + extent.2 ≤ file.length) ∧
      (rdHeader file Cursor.start).2.steps ≤ file.length + 40 := by
  have start : Cursor.start.Inside file.length := ⟨Nat.zero_le _, fun _ inside => by cases inside⟩
  have ends := lawful_rdHeader.inside file Cursor.start start
  have paid := paced_rdHeader.short file Cursor.start
  refine ⟨ends.2, ?_⟩
  have here := ends.1
  have zero : Cursor.start.steps = 0 := rfl
  omega

end GridcoreRunner.Gguf
