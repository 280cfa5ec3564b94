import GridcoreRunner.Gguf.Open

/-!
# An opened GGUF file is safe to use

Every tensor of a supported type lies inside the mapping of its own part and has exactly
the bytes its dimensions ask for, every string and array came from inside the file, and no
two keys or tensors share a name.
-/

namespace GridcoreRunner.Gguf

open GridcoreRunner.Reader

set_option autoImplicit false

/-! ## Duplicates -/

theorem adjacent_duplicate_none {names : List Bytes}
    (sorted : names.Pairwise fun a b => a ≤ b) :
    adjacentDuplicate names = none ↔ names.Nodup := by
  induction names with
  | nil => simp [adjacentDuplicate]
  | cons a names induction =>
      cases names with
      | nil => simp [adjacentDuplicate]
      | cons b rest =>
          have tail := induction (List.pairwise_cons.mp sorted).2
          rw [adjacentDuplicate]
          split_ifs with same
          · simp [same]
          · rw [tail]
            constructor
            · intro distinct
              apply List.nodup_cons.mpr
              refine ⟨?_, distinct⟩
              intro inside
              rcases List.mem_cons.mp inside with first | later
              · exact same first
              · -- a stands before b and b before every later name
                have before := (List.pairwise_cons.mp sorted).1 b List.mem_cons_self
                have after := (List.pairwise_cons.mp (List.pairwise_cons.mp sorted).2).1 a later
                exact same (List.le_antisymm before after)
            · intro distinct
              exact (List.nodup_cons.mp distinct).2

theorem first_duplicate_none {names : List Bytes} :
    firstDuplicate names = none ↔ names.Nodup := by
  have sorted : (names.insertionSort fun a b => a ≤ b).Pairwise fun a b => a ≤ b :=
    List.pairwise_insertionSort _ names
  unfold firstDuplicate
  rw [adjacent_duplicate_none sorted]
  exact (List.perm_insertionSort _ names).nodup_iff

theorem first_duplicate_not_some {names : List Bytes} :
    ¬ (firstDuplicate names).isSome = true ↔ names.Nodup := by
  rw [← first_duplicate_none]
  cases firstDuplicate names <;> simp

/-! ## The bytes of a tensor -/

/-- The dimensions make whole blocks, and the blocks make so many bytes without overflow. -/
structure Exact (type : Nat) (ne : List Nat) (nbytes : Nat) : Prop where
  whole : ne.getD 0 1 % ggmlBlockSize type = 0
  positive : ∀ i < 4, 1 ≤ ne.getD i 1 ∧ ne.getD i 1 ≤ intMax
  count : nbytes = ne.getD 0 1 / ggmlBlockSize type * ggmlTypeSize type *
    (ne.getD 1 1 * ne.getD 2 1 * ne.getD 3 1)
  rows : ne.getD 1 1 * ne.getD 2 1 * ne.getD 3 1 ≤ uint64Max
  row : ne.getD 0 1 / ggmlBlockSize type * ggmlTypeSize type ≤ uint64Max
  fits : nbytes ≤ uint64Max

theorem byte_count_some {t : Descriptor} {nbytes : Nat} :
    t.byteCount = some nbytes ↔ Exact t.type t.ne nbytes := by
  unfold Descriptor.byteCount Descriptor.dim
  split_ifs with bad
  · constructor
    · intro absurd
      cases absurd
    · intro exact'
      have zero := exact'.positive 0 (by decide)
      have one := exact'.positive 1 (by decide)
      have two := exact'.positive 2 (by decide)
      have three := exact'.positive 3 (by decide)
      have whole := exact'.whole
      omega
  · constructor
    · intro counted
      rcases Option.bind_eq_some_iff.mp counted with ⟨rows, first, counted⟩
      rcases Option.bind_eq_some_iff.mp counted with ⟨rows', second, counted⟩
      rcases Option.bind_eq_some_iff.mp counted with ⟨rowBytes, third, counted⟩
      rw [checked_mul_some] at first second third counted
      rcases first with ⟨rfl, _⟩
      rcases second with ⟨rfl, rowsFit⟩
      rcases third with ⟨rfl, rowFits⟩
      rcases counted with ⟨rfl, fits⟩
      constructor
      · omega
      · intro i few
        have cases' : i = 0 ∨ i = 1 ∨ i = 2 ∨ i = 3 := by omega
        rcases cases' with rfl | rfl | rfl | rfl <;> omega
      · rfl
      · exact rowsFit
      · exact rowFits
      · exact fits
    · intro exact'
      have two : checkedU64Mul (t.ne.getD 1 1) (t.ne.getD 2 1) =
          some (t.ne.getD 1 1 * t.ne.getD 2 1) := by
        rw [checked_mul_some]
        refine ⟨rfl, ?_⟩
        have third := exact'.positive 3 (by decide)
        apply Nat.le_trans _ exact'.rows
        exact Nat.le_mul_of_pos_right _ third.1
      have three := checked_mul_some.mpr ⟨rfl, exact'.rows⟩
      have row := checked_mul_some.mpr ⟨rfl, exact'.row⟩
      have all : checkedU64Mul (t.ne.getD 0 1 / ggmlBlockSize t.type * ggmlTypeSize t.type)
          (t.ne.getD 1 1 * t.ne.getD 2 1 * t.ne.getD 3 1) = some nbytes := by
        rw [checked_mul_some, ← exact'.count]
        exact ⟨rfl, exact'.fits⟩
      simp only [Option.bind_eq_bind, two, three, row, all, Option.bind_some]

/-! ## Tensors in the mapping -/

/-- A tensor placed in the mapping: left without data if its type is not supported. -/
def PlacedIn (mapSize dataStart : Nat) (t : Descriptor) (tensor : Tensor) : Prop :=
  (ggmlTypeSupported t.type = false ∧ tensor = t.tensor none 0) ∨
    (ggmlTypeSupported t.type = true ∧ ∃ nbytes, Exact t.type t.ne nbytes ∧
      dataStart + t.off + nbytes ≤ mapSize ∧
      tensor = t.tensor (some { part := 0, pos := dataStart + t.off }) nbytes)

theorem place_tensor_full {mapSize dataStart dataBytes : Nat} {t : Descriptor}
    {placed : Tensor × Nat} (inside : dataStart ≤ mapSize) :
    placeTensor mapSize dataStart false dataBytes t = some placed ↔
      placed.2 = dataBytes ∧ PlacedIn mapSize dataStart t placed.1 := by
  rcases placed with ⟨tensor, after⟩
  unfold placeTensor PlacedIn
  cases supported : ggmlTypeSupported t.type with
  | false =>
      rw [Bool.not_false, if_pos rfl]
      constructor
      · intro same
        cases same
        exact ⟨rfl, Or.inl ⟨rfl, rfl⟩⟩
      · intro placed
        rcases placed with ⟨same, ⟨_, found⟩ | ⟨absurd, _⟩⟩
        · cases same
          cases found
          rfl
        · cases absurd
  | true =>
      rw [Bool.not_true, if_neg Bool.false_ne_true]
      rw [Option.bind_eq_bind, Option.bind_eq_some_iff]
      simp only [Bool.false_eq_true, if_false]
      constructor
      · intro steps
        rcases steps with ⟨nbytes, counted, fits⟩
        rw [byte_count_some] at counted
        split_ifs at fits with beyond
        cases fits
        refine ⟨rfl, Or.inr ⟨trivial, nbytes, counted, ?_, rfl⟩⟩
        omega
      · intro placed
        rcases placed with ⟨same, ⟨absurd, _⟩ | ⟨_, nbytes, counted, room, found⟩⟩
        · cases absurd
        · refine ⟨nbytes, byte_count_some.mpr counted, ?_⟩
          cases same
          cases found
          rw [if_neg (by omega)]

theorem place_tensors_full {mapSize dataStart dataBytes : Nat} {ts : List Descriptor}
    {placed : List Tensor × Nat} (inside : dataStart ≤ mapSize) :
    placeTensors mapSize dataStart false dataBytes ts = some placed ↔
      placed.2 = dataBytes ∧ List.Forall₂ (PlacedIn mapSize dataStart) ts placed.1 := by
  induction ts generalizing dataBytes placed with
  | nil =>
      rcases placed with ⟨tensors, after⟩
      rw [placeTensors, List.forall₂_nil_left_iff]
      constructor
      · intro same
        cases same
        exact ⟨rfl, rfl⟩
      · intro same
        rcases same with ⟨same, empty⟩
        cases same
        cases empty
        rfl
  | cons t ts induction =>
      rcases placed with ⟨tensors, after⟩
      rw [placeTensors, List.forall₂_cons_left_iff]
      simp only [Option.bind_eq_bind, Option.bind_eq_some_iff, Option.some.injEq]
      constructor
      · intro steps
        rcases steps with ⟨first, here, others, there, same⟩
        cases same
        rw [place_tensor_full inside] at here
        rw [induction] at there
        refine ⟨?_, first.1, others.1, here.2, there.2, rfl⟩
        rw [there.1, here.1]
      · intro all
        rcases all with ⟨same, tensor, rest, here, there, cut⟩
        cases same
        cases cut
        exact ⟨(tensor, _), (place_tensor_full inside).mpr ⟨rfl, here⟩,
          (rest, _), induction.mpr ⟨rfl, there⟩, rfl⟩

/-! ## One file -/

/-- What an open of a mapped file goes through. -/
structure Opening (map : Bytes) (headerOnly : Bool) (h : Header) (c : Cursor) (dataStart : Nat)
    (placed : List Tensor × Nat) (g : GgufFile) : Prop where
  size : 24 ≤ map.length
  header : rdHeader map Cursor.start = (some h, c)
  keys : (h.kv.map fun pair => cstr pair.key).Nodup
  names : (h.tensors.map Descriptor.name).Nodup
  start : dataStartOf h.kv c.pos = some dataStart
  reached : dataStart ≤ map.length
  place : placeTensors map.length dataStart headerOnly 0 h.tensors = some placed
  mapped : mappedSizeOf map.length dataStart headerOnly placed.2 = some g.mappedSize
  file : g = fileOf map headerOnly h placed g.mappedSize

theorem open_one_some {map : Bytes} {headerOnly : Bool} {g : GgufFile} :
    ggufOpenOneX map headerOnly = some g ↔
      ∃ h c dataStart placed, Opening map headerOnly h c dataStart placed g := by
  unfold ggufOpenOneX
  constructor
  · intro opened
    split_ifs at opened with small
    rcases read : rdHeader map Cursor.start with ⟨_ | h, c⟩
    · rw [read] at opened
      cases opened
    · rw [read] at opened
      dsimp only at opened
      split_ifs at opened with keys names
      rcases Option.bind_eq_some_iff.mp opened with ⟨dataStart, start, opened⟩
      split_ifs at opened with beyond
      rcases Option.bind_eq_some_iff.mp opened with ⟨placed, place, opened⟩
      rcases Option.bind_eq_some_iff.mp opened with ⟨mappedSize, mapped, opened⟩
      cases opened
      exact ⟨h, c, dataStart, placed, {
        size := by omega
        header := read
        keys := first_duplicate_not_some.mp keys
        names := first_duplicate_not_some.mp names
        start := start
        reached := by omega
        place := place
        mapped := mapped
        file := rfl
      }⟩
  · intro opening
    rcases opening with ⟨h, c, dataStart, placed, opening⟩
    have keys := first_duplicate_not_some.mpr opening.keys
    have names := first_duplicate_not_some.mpr opening.names
    have large := opening.size
    have reached := opening.reached
    rw [if_neg (by omega), opening.header]
    dsimp only
    rw [if_neg keys, if_neg names, opening.start]
    simp only [Option.bind_eq_bind, Option.bind_some]
    rw [if_neg (by omega), opening.place]
    simp only [Option.bind_some]
    rw [opening.mapped]
    exact congrArg some opening.file.symm

/-! ## What an opened file promises -/

/-- The extent a tensor was declared with in the header of this part. -/
def Declared (map : Bytes) (t : Tensor) (pos : Nat) : Prop :=
  ∃ h c dataStart d, rdHeader map Cursor.start = (some h, c) ∧
    dataStartOf h.kv c.pos = some dataStart ∧ d ∈ h.tensors ∧
    t.name = d.name ∧ t.type = d.type ∧ t.nDims = d.nDims ∧ t.ne = d.ne ∧
    pos = dataStart + d.off

/-- A supported tensor lies in the mapping its pointer is of; any other has no data. -/
structure Tensor.Safe (maps : List Bytes) (t : Tensor) : Prop where
  inside : ggmlTypeSupported t.type = true → ∃ pointer map, t.data = some pointer ∧
    maps[pointer.part]? = some map ∧ Declared map t pointer.pos ∧
    pointer.pos + t.nbytes ≤ map.length ∧ Exact t.type t.ne t.nbytes
  none : ggmlTypeSupported t.type = false → t.data = none ∧ t.nbytes = 0
  name : ∃ map ∈ maps, ∃ s, s <:+: map ∧ t.name = cstr s

structure GgufFile.Safe (g : GgufFile) : Prop where
  tensors : ∀ t ∈ g.tensors, t.Safe g.maps
  kv : ∃ map, g.maps[0]? = some map ∧ ∀ pair ∈ g.kv, pair.From map
  keys : (g.kv.map fun pair => cstr pair.key).Nodup
  names : (g.tensors.map Tensor.name).Nodup
  reads : ∀ key idx dflt, (ggufGetU32Idx g.kv key idx dflt).isSome = true

theorem placed_names {mapSize dataStart : Nat} {ts : List Descriptor} {tensors : List Tensor}
    (placed : List.Forall₂ (PlacedIn mapSize dataStart) ts tensors) :
    tensors.map Tensor.name = ts.map Descriptor.name := by
  induction placed with
  | nil => rfl
  | cons first rest induction =>
      rw [List.map_cons, List.map_cons, induction]
      rcases first with ⟨_, same⟩ | ⟨_, _, _, _, same⟩ <;> rw [same] <;> rfl

/-- A read of an element stays inside an array with so many elements of its size. -/
theorem element_some {arrType : ValType} {bytes : Bytes} {arrN idx : Nat} (dflt : Nat)
    (counted : bytes.length = scalarSize arrType * arrN) (small : idx < arrN) :
    (element arrType bytes idx dflt).isSome = true := by
  have one : ∀ size, bytes.length = size * arrN →
      (arrayRead bytes (idx * size) size).isSome = true := by
    intro size same
    unfold arrayRead
    have room : idx * size + size ≤ bytes.length := by
      rw [same, Nat.mul_comm size arrN]
      calc idx * size + size = (idx + 1) * size := by rw [Nat.add_mul, Nat.one_mul]
        _ ≤ arrN * size := Nat.mul_le_mul_right size small
    rw [if_pos room]
    rfl
  have bytewise := one 1
  rw [Nat.mul_one] at bytewise
  cases arrType with
  | u8 => simpa [element] using bytewise counted
  | i8 => simpa [element] using bytewise counted
  | u16 => simpa [element] using one 2 counted
  | i16 => simpa [element] using one 2 counted
  | u32 => simpa [element] using one 4 counted
  | i32 => simpa [element] using one 4 counted
  | u64 => simpa [element] using one 8 counted
  | i64 => simpa [element] using one 8 counted
  | _ => rfl

theorem idx_some {map : Bytes} {kv : List Kv} (pairs : ∀ pair ∈ kv, pair.From map) (key : Bytes)
    (idx dflt : Nat) : (ggufGetU32Idx kv key idx dflt).isSome = true := by
  unfold ggufGetU32Idx
  cases found : ggufGet kv key with
  | none => rfl
  | some pair =>
      have inside : pair ∈ kv := List.mem_of_find?_eq_some found
      have read := (pairs pair inside).2
      dsimp only
      cases value : pair.value with
      | arrRaw arrType arrN start bytes =>
          rw [value] at read
          dsimp only
          split_ifs with past
          · rfl
          · exact element_some dflt read.2.2 (by omega)
      | _ => rfl

theorem open_one_safe {map : Bytes} {g : GgufFile} (opened : ggufOpenOne map = some g) :
    g.Safe ∧ g.maps = [map] := by
  rcases open_one_some.mp opened with ⟨h, c, dataStart, placed, opening⟩
  have parsed := rd_header_some opening.header
  have all := ((place_tensors_full opening.reached).mp opening.place).2
  have file := opening.file
  have maps : g.maps = [map] := by
    rw [file]
    rfl
  have kv : g.kv = h.kv := by
    rw [file]
    rfl
  have tensors : g.tensors = placed.1 := by
    rw [file]
    rfl
  refine ⟨?_, maps⟩
  constructor
  · intro t inside
    rw [tensors] at inside
    rw [maps]
    rcases List.forall₂_iff_get.mp all with ⟨lengths, each⟩
    rcases List.mem_iff_get.mp inside with ⟨i, same⟩
    have here := each i.1 (by omega) i.2
    have among : h.tensors.get ⟨i.1, by omega⟩ ∈ h.tensors := List.get_mem _ _
    have from' := parsed.1.tensors _ among
    rw [show placed.1.get ⟨i.1, i.2⟩ = t from same] at here
    rcases from'.name with ⟨s, infile, _, named⟩
    rcases here with ⟨unsupported, found⟩ | ⟨supported, nbytes, exact', room, found⟩
    · constructor
      · intro supported
        rw [found] at supported
        rw [show (h.tensors.get ⟨i.1, _⟩).type = _ from rfl] at unsupported
        exact absurd (supported.symm.trans unsupported) (by decide)
      · intro _
        rw [found]
        exact ⟨rfl, rfl⟩
      · exact ⟨map, List.mem_singleton.mpr rfl, s, infile, by rw [found]; exact named⟩
    · constructor
      · intro _
        rw [found]
        refine ⟨_, map, rfl, rfl, ?_, room, exact'⟩
        exact ⟨h, c, dataStart, _, opening.header, opening.start, among, rfl, rfl, rfl, rfl, rfl⟩
      · intro unsupported
        rw [found] at unsupported
        exact absurd (supported.symm.trans unsupported) (by decide)
      · exact ⟨map, List.mem_singleton.mpr rfl, s, infile, by rw [found]; exact named⟩
  · rw [maps, kv]
    exact ⟨map, rfl, parsed.1.kv⟩
  · rw [kv]
    exact opening.keys
  · rw [tensors, placed_names all]
    exact opening.names
  · rw [kv]
    exact idx_some parsed.1.kv

/-! ## Split files -/

/-- Every part that is opened is one file opened in full. -/
def Whole (parts : List GgufFile) : Prop := ∀ part ∈ parts, ∃ map, ggufOpenOne map = some part

theorem open_parts_whole {disk : Bytes → Option Bytes} {first : Bytes}
    {count expected left i total mapped : Nat} {parts : List GgufFile}
    {result : List GgufFile × Nat} (whole : Whole parts)
    (opened : openParts disk first count expected left i parts total mapped = some result) :
    Whole result.1 := by
  induction left generalizing i parts total mapped with
  | zero =>
      rw [openParts] at opened
      split_ifs at opened
      cases opened
      exact whole
  | succ left induction =>
      rw [openParts] at opened
      rcases Option.bind_eq_some_iff.mp opened with ⟨path, _, opened⟩
      rcases Option.bind_eq_some_iff.mp opened with ⟨map, _, opened⟩
      rcases Option.bind_eq_some_iff.mp opened with ⟨part, here, opened⟩
      split_ifs at opened
      apply induction _ opened
      intro other inside
      rcases List.mem_append.mp inside with old | new
      · exact whole other old
      · cases List.mem_singleton.mp new
        exact ⟨map, here⟩

theorem whole_maps {parts : List GgufFile} (whole : Whole parts) {i : Nat} {part : GgufFile}
    (here : parts[i]? = some part) :
    ∃ map, part.maps = [map] ∧ (parts.flatMap GgufFile.maps)[i]? = some map := by
  induction parts generalizing i with
  | nil => cases here
  | cons first rest induction =>
      rcases whole first List.mem_cons_self with ⟨map, opened⟩
      have one := (open_one_safe opened).2
      rw [List.flatMap_cons, one]
      cases i with
      | zero =>
          cases here
          exact ⟨map, one, rfl⟩
      | succ i => exact induction (fun other inside => whole other (List.mem_cons_of_mem _ inside)) here

theorem in_part_safe {maps : List Bytes} {map : Bytes} {t : Tensor} (safe : t.Safe [map]) {i : Nat}
    (here : maps[i]? = some map) : (t.inPart i).Safe maps := by
  constructor
  · intro supported
    rcases safe.inside supported with ⟨pointer, other, data, at', declared, room, exact'⟩
    have first : pointer.part = 0 := by
      by_contra later
      rw [List.getElem?_eq_none (by simp; omega)] at at'
      cases at'
    rw [first] at at'
    cases at'
    refine ⟨{ pointer with part := i }, map, ?_, here, declared, room, exact'⟩
    show t.data.map _ = _
    rw [data]
    rfl
  · intro unsupported
    have nothing := safe.none unsupported
    refine ⟨?_, nothing.2⟩
    show t.data.map _ = _
    rw [nothing.1]
    rfl
  · rcases safe.name with ⟨other, inside, s, infile, named⟩
    cases List.mem_singleton.mp inside
    exact ⟨map, List.mem_of_getElem? here, s, infile, named⟩

theorem merged_safe {parts : List GgufFile} (whole : Whole parts) {t : Tensor}
    (inside : t ∈ mergedTensors parts) : t.Safe (parts.flatMap GgufFile.maps) := by
  rcases List.mem_flatten.mp inside with ⟨tensors, listed, among⟩
  rcases List.mem_map.mp listed with ⟨⟨part, i⟩, numbered, same⟩
  rw [← same] at among
  rcases List.mem_map.mp among with ⟨original, own, moved⟩
  have here : parts[i]? = some part := List.mk_mem_zipIdx_iff_getElem?.mp numbered
  rcases whole_maps whole here with ⟨map, one, listed⟩
  rcases whole part (List.mem_of_getElem? here) with ⟨other, opened⟩
  have safe := (open_one_safe opened).1.tensors original own
  rw [one] at safe
  rw [← moved]
  exact in_part_safe safe listed

theorem open_safe {disk : Bytes → Option Bytes} {path : Bytes} {g : GgufFile}
    (opened : ggufOpen disk path = some g) : g.Safe := by
  unfold ggufOpen at opened
  rcases Option.bind_eq_some_iff.mp opened with ⟨map, _, opened⟩
  rcases Option.bind_eq_some_iff.mp opened with ⟨probe, probed, opened⟩
  dsimp only at opened
  split_ifs at opened with single invalid
  · cases opened
    exact (open_one_safe probed).1
  · rcases Option.bind_eq_some_iff.mp opened with ⟨first, _, opened⟩
    rcases Option.bind_eq_some_iff.mp opened with ⟨result, parts, opened⟩
    rcases Option.bind_eq_some_iff.mp opened with ⟨head, found, opened⟩
    split_ifs at opened with duplicate
    cases opened
    have whole : Whole result.1 :=
      open_parts_whole (fun part inside => by cases inside) parts
    have front : result.1[0]? = some head := by
      rw [← List.head?_eq_getElem?]
      exact found
    rcases whole head (List.mem_of_getElem? front) with ⟨other, opened'⟩
    have safe := (open_one_safe opened').1
    rcases whole_maps whole front with ⟨held, one, listed⟩
    constructor
    · intro t inside
      exact merged_safe whole inside
    · rcases safe.kv with ⟨mapped, only, pairs⟩
      rw [one] at only
      cases only
      exact ⟨held, listed, pairs⟩
    · exact safe.keys
    · exact first_duplicate_not_some.mp duplicate
    · exact safe.reads

/-- Opening is safe on every file: what is accepted lies inside its mappings, and whatever
is presented is parsed inside the file in a step a byte and a constant. -/
theorem gguf_open_safe :
    (∀ disk path g, ggufOpen disk path = some g → g.Safe) ∧
      (∀ map headerOnly g, ggufOpenOneX map headerOnly = some g →
        ∀ pair ∈ g.kv, pair.From map) ∧
      ∀ file, (∀ extent ∈ (rdHeader file Cursor.start).2.reads,
          extent.1 + extent.2 ≤ file.length) ∧
        (rdHeader file Cursor.start).2.steps ≤ file.length + 40 ∧
        ∀ h c, rdHeader file Cursor.start = (some h, c) →
          8 * (h.kv.length + h.tensors.length) ≤ file.length := by
  refine ⟨?_, ?_, ?_⟩
  · intro disk path g opened
    exact open_safe opened
  · intro map headerOnly g opened
    rcases open_one_some.mp opened with ⟨h, c, dataStart, placed, opening⟩
    rw [opening.file]
    exact (rd_header_some opening.header).1.kv
  · intro file
    have bounded := rd_header_bounded file
    refine ⟨bounded.1, bounded.2, ?_⟩
    intro h c read
    have parsed := rd_header_some read
    omega

/-! ## A split model of two parts -/

def leBytes : Nat → Nat → Bytes
  | 0, _ => []
  | size + 1, n => UInt8.ofNat n :: leBytes size (n / 256)

def wrStr (s : Bytes) : Bytes := leBytes 8 s.length ++ s

/-- One part of two: four pairs, one number of type F32, padded to the alignment. -/
def smallPart (no : Nat) (name : Bytes) : Bytes :=
  let head := leBytes 4 0x46554747 ++ leBytes 4 3 ++ leBytes 8 1 ++ leBytes 8 4 ++
    wrStr (ascii "general.architecture") ++ leBytes 4 8 ++ wrStr (ascii "llama") ++
    wrStr (ascii "split.no") ++ leBytes 4 2 ++ leBytes 2 no ++
    wrStr (ascii "split.count") ++ leBytes 4 2 ++ leBytes 2 2 ++
    wrStr (ascii "split.tensors.count") ++ leBytes 4 4 ++ leBytes 4 2 ++
    wrStr name ++ leBytes 4 1 ++ leBytes 8 1 ++ leBytes 4 0 ++ leBytes 8 0
  head ++ List.replicate (32 - head.length % 32) 0 ++ [0, 0, 128, 63]

def smallDisk (path : Bytes) : Option Bytes :=
  if path = ascii "m-00001-of-00002.gguf" then some (smallPart 0 (ascii "a"))
  else if path = ascii "m-00002-of-00002.gguf" then some (smallPart 1 (ascii "b"))
  else none

theorem small_split_safe :
    ∃ g, ggufOpen smallDisk (ascii "m-00002-of-00002.gguf") = some g ∧ g.Safe := by
  have opens : (ggufOpen smallDisk (ascii "m-00002-of-00002.gguf")).isSome = true := by
    decide +kernel
  rcases Option.isSome_iff_exists.mp opens with ⟨g, opened⟩
  exact ⟨g, opened, gguf_open_safe.1 _ _ g opened⟩

end GridcoreRunner.Gguf
