import GridcoreRunner.Gguf.Safety

/-!
# Opening the header alone

A header that is parsed from a part of a file is the header of the whole file, its tensors
are placed on paper exactly when a file long enough would hold them, and the size it
promises is the smallest such length.
-/

namespace GridcoreRunner.Gguf

open GridcoreRunner.Reader

set_option autoImplicit false

/-- A mapped file: its size is a `size_t`. -/
structure Mapping where
  bytes : Bytes
  fits : bytes.length ≤ uint64Max

/-! ## Where the data starts -/

theorem alignment_pow2 (kv : List Kv) : pow2 (alignmentOf kv) = true := by
  unfold alignmentOf
  dsimp only
  split_ifs with power
  · exact power
  · decide

/-- The data starts at the first aligned place behind the header. -/
theorem data_start_some {kv : List Kv} {headerEnd dataStart : Nat} (bound : headerEnd ≤ uint64Max)
    (start : dataStartOf kv headerEnd = some dataStart) :
    headerEnd ≤ dataStart ∧ dataStart % alignmentOf kv = 0 := by
  rcases Option.bind_eq_some_iff.mp start with ⟨alignedEnd, added, rounded⟩
  rcases (checked_add_some bound).mp added with ⟨sum, room⟩
  have power := alignment_pow2 kv
  have positive : 0 < alignmentOf kv := by
    rcases pow2_iff.mp power with ⟨k, same⟩
    rw [same]
    exact Nat.two_pow_pos k
  rw [round_down_eq power (by omega)] at rounded
  cases rounded
  refine ⟨?_, Nat.mul_mod_left _ _⟩
  have split' := Nat.div_add_mod alignedEnd (alignmentOf kv)
  have small := Nat.mod_lt alignedEnd positive
  rw [Nat.mul_comm] at split'
  omega

/-! ## Tensors on paper -/

/-- Where a tensor of a supported type ends in the data section. -/
def Descriptor.ends (t : Descriptor) : Nat :=
  if ggmlTypeSupported t.type then t.off + t.byteCount.getD 0 else 0

def largestEnd (ts : List Descriptor) : Nat := ts.foldr (fun t rest => max t.ends rest) 0

/-- A tensor as a header without data describes it. -/
def OnPaper (t : Descriptor) (tensor : Tensor) : Prop :=
  (ggmlTypeSupported t.type = false ∧ tensor = t.tensor none 0) ∨
    (ggmlTypeSupported t.type = true ∧ ∃ nbytes, Exact t.type t.ne nbytes ∧
      t.off + nbytes ≤ uint64Max ∧ tensor = t.tensor none nbytes)

theorem ends_of_exact {t : Descriptor} {nbytes : Nat} (supported : ggmlTypeSupported t.type = true)
    (exact' : Exact t.type t.ne nbytes) : t.ends = t.off + nbytes := by
  unfold Descriptor.ends
  rw [if_pos supported, byte_count_some.mpr exact']
  rfl

theorem place_tensor_header {mapSize dataStart dataBytes : Nat} {t : Descriptor}
    {placed : Tensor × Nat} (bound : t.off ≤ uint64Max) :
    placeTensor mapSize dataStart true dataBytes t = some placed ↔
      placed.2 = max dataBytes t.ends ∧ OnPaper t placed.1 := by
  rcases placed with ⟨tensor, after⟩
  unfold placeTensor OnPaper
  cases supported : ggmlTypeSupported t.type with
  | false =>
      have nothing : t.ends = 0 := by
        unfold Descriptor.ends
        rw [supported, if_neg Bool.false_ne_true]
      rw [Bool.not_false, if_pos rfl, nothing, Nat.max_eq_left (Nat.zero_le _)]
      constructor
      · intro same
        cases same
        exact ⟨rfl, Or.inl ⟨rfl, rfl⟩⟩
      · intro placed
        rcases placed with ⟨same, ⟨_, found⟩ | ⟨absurd, _⟩⟩
        · cases same
          cases found
          rfl
        · cases absurd
  | true =>
      rw [Bool.not_true, if_neg Bool.false_ne_true]
      rw [Option.bind_eq_bind, Option.bind_eq_some_iff]
      simp only [if_true]
      have larger : ∀ ends : Nat, (if ends > dataBytes then ends else dataBytes) =
          max dataBytes ends := by
        intro ends
        split_ifs with beyond
        · exact (Nat.max_eq_right (Nat.le_of_lt beyond)).symm
        · exact (Nat.max_eq_left (Nat.le_of_not_lt beyond)).symm
      constructor
      · intro steps
        rcases steps with ⟨nbytes, counted, rest⟩
        rcases Option.bind_eq_some_iff.mp rest with ⟨ends, added, same⟩
        rw [byte_count_some] at counted
        rcases (checked_add_some bound).mp added with ⟨sum, room⟩
        cases same
        rw [ends_of_exact supported counted, larger, sum]
        exact ⟨rfl, Or.inr ⟨trivial, nbytes, counted, room, rfl⟩⟩
      · intro placed
        rcases placed with ⟨same, ⟨absurd, _⟩ | ⟨_, nbytes, counted, room, found⟩⟩
        · cases absurd
        · refine ⟨nbytes, byte_count_some.mpr counted, ?_⟩
          rw [(checked_add_some bound).mpr ⟨rfl, room⟩]
          rw [ends_of_exact supported counted] at same
          cases same
          cases found
          rw [Option.bind_some, larger]

theorem place_tensors_header {mapSize dataStart dataBytes : Nat} {ts : List Descriptor}
    {placed : List Tensor × Nat} (bounds : ∀ t ∈ ts, t.off ≤ uint64Max) :
    placeTensors mapSize dataStart true dataBytes ts = some placed ↔
      placed.2 = max dataBytes (largestEnd ts) ∧ List.Forall₂ OnPaper ts placed.1 := by
  induction ts generalizing dataBytes placed with
  | nil =>
      rcases placed with ⟨tensors, after⟩
      rw [placeTensors, List.forall₂_nil_left_iff]
      constructor
      · intro same
        cases same
        exact ⟨(Nat.max_eq_left (Nat.zero_le _)).symm, rfl⟩
      · intro same
        rcases same with ⟨same, empty⟩
        cases empty
        rw [show after = max dataBytes 0 from same, Nat.max_eq_left (Nat.zero_le _)]
  | cons t ts induction =>
      have bound := bounds t List.mem_cons_self
      have others : ∀ t ∈ ts, t.off ≤ uint64Max :=
        fun t inside => bounds t (List.mem_cons_of_mem _ inside)
      rcases placed with ⟨tensors, after⟩
      rw [placeTensors, List.forall₂_cons_left_iff]
      simp only [Option.bind_eq_bind, Option.bind_eq_some_iff, Option.some.injEq]
      have whole : largestEnd (t :: ts) = max t.ends (largestEnd ts) := rfl
      rw [whole, ← Nat.max_assoc]
      constructor
      · intro steps
        rcases steps with ⟨first, here, later, there, same⟩
        cases same
        rw [place_tensor_header bound] at here
        rw [induction others] at there
        refine ⟨?_, first.1, later.1, here.2, there.2, rfl⟩
        rw [there.1, here.1]
      · intro all
        rcases all with ⟨same, tensor, rest, here, there, cut⟩
        cases same
        cases cut
        exact ⟨(tensor, _), (place_tensor_header bound).mpr ⟨rfl, here⟩,
          (rest, _), (induction others).mpr ⟨rfl, there⟩, rfl⟩

/-! ## On paper and in the mapping -/

def Tensor.onPaper (t : Tensor) : Tensor := { t with data := none }

theorem on_paper_of_placed {mapSize dataStart : Nat} {t : Descriptor} {tensor : Tensor}
    (fits : mapSize ≤ uint64Max) (reached : dataStart ≤ mapSize)
    (placed : PlacedIn mapSize dataStart t tensor) :
    OnPaper t tensor.onPaper ∧ dataStart + t.ends ≤ mapSize := by
  rcases placed with ⟨unsupported, same⟩ | ⟨supported, nbytes, exact', room, same⟩
  · have nothing : t.ends = 0 := by
      unfold Descriptor.ends
      rw [unsupported, if_neg Bool.false_ne_true]
    refine ⟨Or.inl ⟨unsupported, ?_⟩, by omega⟩
    rw [same]
    rfl
  · rw [ends_of_exact supported exact']
    refine ⟨Or.inr ⟨supported, nbytes, exact', by omega, ?_⟩, by omega⟩
    rw [same]
    rfl

theorem placed_of_on_paper {mapSize dataStart : Nat} {t : Descriptor} {tensor : Tensor}
    (paper : OnPaper t tensor) (room : dataStart + t.ends ≤ mapSize) :
    ∃ placed, PlacedIn mapSize dataStart t placed ∧ placed.onPaper = tensor := by
  rcases paper with ⟨unsupported, same⟩ | ⟨supported, nbytes, exact', _, same⟩
  · exact ⟨t.tensor none 0, Or.inl ⟨unsupported, rfl⟩, by rw [same]; rfl⟩
  · rw [ends_of_exact supported exact'] at room
    refine ⟨t.tensor (some { part := 0, pos := dataStart + t.off }) nbytes,
      Or.inr ⟨supported, nbytes, exact', by omega, rfl⟩, ?_⟩
    rw [same]
    rfl

theorem all_on_paper {mapSize dataStart : Nat} {ts : List Descriptor} {tensors : List Tensor}
    (fits : mapSize ≤ uint64Max) (reached : dataStart ≤ mapSize)
    (placed : List.Forall₂ (PlacedIn mapSize dataStart) ts tensors) :
    List.Forall₂ OnPaper ts (tensors.map Tensor.onPaper) ∧ dataStart + largestEnd ts ≤ mapSize := by
  induction placed with
  | nil => exact ⟨List.Forall₂.nil, reached⟩
  | @cons t tensor ts tensors first rest induction =>
      have here := on_paper_of_placed fits reached first
      have whole : largestEnd (t :: ts) = max t.ends (largestEnd ts) := rfl
      refine ⟨List.Forall₂.cons here.1 induction.1, ?_⟩
      rw [whole]
      omega

theorem all_placed {mapSize dataStart : Nat} {ts : List Descriptor} {tensors : List Tensor}
    (paper : List.Forall₂ OnPaper ts tensors) (room : dataStart + largestEnd ts ≤ mapSize) :
    ∃ placed, List.Forall₂ (PlacedIn mapSize dataStart) ts placed ∧
      placed.map Tensor.onPaper = tensors := by
  induction paper with
  | nil => exact ⟨[], List.Forall₂.nil, rfl⟩
  | @cons t tensor ts tensors first rest induction =>
      have whole : largestEnd (t :: ts) = max t.ends (largestEnd ts) := rfl
      rw [whole] at room
      have own : dataStart + t.ends ≤ mapSize := by omega
      rcases placed_of_on_paper first own with ⟨placed, here, same⟩
      rcases induction (by omega) with ⟨others, there, same'⟩
      refine ⟨placed :: others, List.Forall₂.cons here there, ?_⟩
      rw [List.map_cons, same, same']

/-! ## The two opens -/

theorem parsed_offsets {file : Bytes} {h : Header} (from' : h.From file) :
    ∀ t ∈ h.tensors, t.off ≤ uint64Max := fun t inside => (from'.tensors t inside).off

/-- The header of a part that reaches the tensor data is the header of the file. -/
theorem header_of_part {F P : Mapping} {g : GgufFile} {h : Header} {c : Cursor} {dataStart : Nat}
    (opened : ggufOpenOne F.bytes = some g) (header : rdHeader F.bytes Cursor.start = (some h, c))
    (start : dataStartOf h.kv c.pos = some dataStart) (part : P.bytes <+: F.bytes)
    (least : 24 ≤ P.bytes.length) (reaches : dataStart ≤ P.bytes.length) :
    ∃ g', ggufOpenHeader P.bytes = some g' ∧ g'.version = g.version ∧ g'.kv = g.kv ∧
      g'.tensors = g.tensors.map Tensor.onPaper ∧
      g'.mappedSize = dataStart + largestEnd h.tensors ∧ g'.mappedSize ≤ F.bytes.length := by
  rcases open_one_some.mp opened with ⟨h', c', dataStart', placed, opening⟩
  rw [opening.header] at header
  cases header
  rw [opening.start] at start
  cases start
  have parsed := rd_header_some opening.header
  have bound : c.pos ≤ uint64Max := Nat.le_trans parsed.2.2.1 F.fits
  have begins := (data_start_some bound opening.start).1
  rcases part with ⟨more, whole⟩
  have short : rdHeader P.bytes Cursor.start = (some h, c) := by
    have long := opening.header
    rw [← whole] at long
    exact lawful_rdHeader.shrink P.bytes more Cursor.start h c long parsed.2.1 (by omega)
  have all := ((place_tensors_full opening.reached).mp opening.place).2
  have paper := all_on_paper F.fits opening.reached all
  have place : placeTensors P.bytes.length dataStart true 0 h.tensors =
      some (placed.1.map Tensor.onPaper, largestEnd h.tensors) := by
    rw [place_tensors_header (parsed_offsets parsed.1)]
    exact ⟨(Nat.max_eq_right (Nat.zero_le _)).symm, paper.1⟩
  have total : dataStart + largestEnd h.tensors ≤ uint64Max := Nat.le_trans paper.2 F.fits
  have started : dataStart ≤ uint64Max := Nat.le_trans (Nat.le_add_right _ _) total
  have mapped : mappedSizeOf P.bytes.length dataStart true (largestEnd h.tensors) =
      some (dataStart + largestEnd h.tensors) := by
    unfold mappedSizeOf
    rw [if_pos rfl, checked_add_some started]
    exact ⟨rfl, total⟩
  refine ⟨fileOf P.bytes true h (placed.1.map Tensor.onPaper, largestEnd h.tensors)
    (dataStart + largestEnd h.tensors), ?_, ?_, ?_, ?_, rfl, paper.2⟩
  · apply open_one_some.mpr
    exact ⟨h, c, dataStart, _, {
      size := least
      header := short
      keys := opening.keys
      names := opening.names
      start := opening.start
      reached := reaches
      place := place
      mapped := mapped
      file := rfl
    }⟩
  · rw [opening.file]
    rfl
  · rw [opening.file]
    rfl
  · rw [opening.file]
    rfl

/-- A file as long as its header promises is accepted in full. -/
theorem file_of_header {P F : Mapping} {g' : GgufFile} (opened : ggufOpenHeader P.bytes = some g')
    (part : P.bytes <+: F.bytes) (long : g'.mappedSize ≤ F.bytes.length) :
    ∃ g, ggufOpenOne F.bytes = some g ∧ g.version = g'.version ∧ g.kv = g'.kv ∧
      g.tensors.map Tensor.onPaper = g'.tensors := by
  rcases open_one_some.mp opened with ⟨h, c, dataStart, placed, opening⟩
  have parsed := rd_header_some opening.header
  have longer := part.length_le
  rcases part with ⟨more, whole⟩
  have header : rdHeader F.bytes Cursor.start = (some h, c) := by
    rw [← whole]
    exact lawful_rdHeader.grow P.bytes more Cursor.start h c opening.header parsed.2.1
  have paper := (place_tensors_header (parsed_offsets parsed.1)).mp opening.place
  have ends : placed.2 = largestEnd h.tensors := by
    rw [paper.1]
    exact Nat.max_eq_right (Nat.zero_le _)
  have started : dataStart ≤ uint64Max := Nat.le_trans opening.reached P.fits
  have total : g'.mappedSize = dataStart + largestEnd h.tensors := by
    have mapped := opening.mapped
    unfold mappedSizeOf at mapped
    rw [if_pos rfl, checked_add_some started, ends] at mapped
    exact mapped.1
  have reached : dataStart ≤ F.bytes.length := Nat.le_trans opening.reached longer
  have room : dataStart + largestEnd h.tensors ≤ F.bytes.length := by
    rw [← total]
    exact long
  rcases all_placed paper.2 room with ⟨tensors, all, same⟩
  refine ⟨fileOf F.bytes false h (tensors, 0) F.bytes.length, ?_, ?_, ?_, ?_⟩
  · apply open_one_some.mpr
    exact ⟨h, c, dataStart, (tensors, 0), {
      size := Nat.le_trans opening.size longer
      header := header
      keys := opening.keys
      names := opening.names
      start := opening.start
      reached := reached
      place := (place_tensors_full reached).mpr ⟨rfl, all⟩
      mapped := rfl
      file := rfl
    }⟩
  · rw [opening.file]
    rfl
  · rw [opening.file]
    rfl
  · rw [opening.file]
    exact same

/-- Opening the header of a part that reaches the data agrees with opening the file, and a
header that opens promises a size at which every file opens. -/
theorem header_only_agrees :
    (∀ (F P : Mapping) (g : GgufFile) (h : Header) (c : Cursor) (dataStart : Nat),
      ggufOpenOne F.bytes = some g → rdHeader F.bytes Cursor.start = (some h, c) →
      dataStartOf h.kv c.pos = some dataStart → P.bytes <+: F.bytes → 24 ≤ P.bytes.length →
      dataStart ≤ P.bytes.length →
      ∃ g', ggufOpenHeader P.bytes = some g' ∧ g'.version = g.version ∧ g'.kv = g.kv ∧
        g'.tensors = g.tensors.map Tensor.onPaper ∧
        g'.mappedSize = dataStart + largestEnd h.tensors ∧ g'.mappedSize ≤ F.bytes.length) ∧
      ∀ (P F : Mapping) (g' : GgufFile), ggufOpenHeader P.bytes = some g' →
        P.bytes <+: F.bytes → g'.mappedSize ≤ F.bytes.length →
        ∃ g, ggufOpenOne F.bytes = some g ∧ g.version = g'.version ∧ g.kv = g'.kv ∧
          g.tensors.map Tensor.onPaper = g'.tensors := by
  constructor
  · intro F P g h c dataStart opened header start part least reaches
    exact header_of_part opened header start part least reaches
  · intro P F g' opened part long
    exact file_of_header opened part long

def smallFile : Mapping := ⟨smallPart 0 (ascii "a"), by decide +kernel⟩

/-- The small file without its four bytes of data. -/
def smallHead : Mapping := ⟨smallFile.bytes.take 192, by decide +kernel⟩

theorem small_head_agrees :
    ∃ g', ggufOpenHeader smallHead.bytes = some g' ∧ g'.mappedSize ≤ smallFile.bytes.length ∧
      ∃ g, ggufOpenOne smallFile.bytes = some g ∧ g.kv = g'.kv := by
  have opens : (ggufOpenOne smallFile.bytes).isSome = true := by decide +kernel
  rcases Option.isSome_iff_exists.mp opens with ⟨g, opened⟩
  rcases open_one_some.mp opened with ⟨h, c, dataStart, placed, opening⟩
  have part : smallHead.bytes <+: smallFile.bytes := List.take_prefix 192 _
  have begins : ((rdHeader smallFile.bytes Cursor.start).1.map fun h =>
      dataStartOf h.kv (rdHeader smallFile.bytes Cursor.start).2.pos) = some (some 192) := by
    decide +kernel
  rw [opening.header] at begins
  have reaches : dataStart ≤ smallHead.bytes.length := by
    have same : some (some dataStart) = some (some 192) := by
      rw [← opening.start]
      exact begins
    have size : smallHead.bytes.length = 192 := by decide +kernel
    cases same
    rw [size]
  rcases header_only_agrees.1 smallFile smallHead g h c dataStart opened opening.header
    opening.start part (by decide +kernel) reaches with ⟨g', header, _, _, _, _, room⟩
  rcases header_only_agrees.2 smallHead smallFile g' header part room with
    ⟨whole, accepted, _, pairs, _⟩
  exact ⟨g', header, room, whole, accepted, pairs⟩

end GridcoreRunner.Gguf
