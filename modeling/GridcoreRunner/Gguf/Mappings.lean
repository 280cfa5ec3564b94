import GridcoreRunner.Gguf.SplitSet
import Mathlib.Data.List.ReduceOption

/-!
# The mappings of an opened model

`gguf_open` with the mappings it makes and releases. A file opened on its own keeps its mapping in
`map`; a split model takes the mappings of its parts over into `maps`, and a part without its
mapping is closed like any other.
-/

namespace GridcoreRunner.Gguf

set_option autoImplicit false

/-- What a call of `plat_mmap_ro` gave: the how manieth of the process, of which file. -/
@[ext]
structure Region where
  number : Nat
  path : Bytes
  size : Nat
  deriving Repr, DecidableEq

/-- The mappings made and the mappings released so far. -/
structure Process where
  made : List Region
  released : List Region
  deriving Repr, DecidableEq

/-- Which allocations are granted: those for opening a mapped file, the table of the parts, the
merged tables, the list of the names. -/
structure Memory where
  file : Region → Bool
  parts : Bool
  merged : Bool
  names : Bool

def Memory.ample : Memory := { file := fun _ => true, parts := true, merged := true, names := true }

/-- `gguf_file`: `map` and `maps` own mappings, and the pointers of the tensors carry the number of
the mapping they point into. -/
structure Handle where
  map : Option Region
  maps : Option (List (Option Region))
  file : GgufFile
  deriving Repr, DecidableEq

def Handle.zero : Handle where
  map := none
  maps := none
  file := {
    maps := []
    mappedSize := 0
    version := 0
    kv := []
    tensors := []
    headerOnly := false
    dataBytes := 0
  }

def Handle.mapSize (g : Handle) : Nat := (g.map.map Region.size).getD 0

def GgufFile.inPart (part : Nat) (g : GgufFile) : GgufFile :=
  { g with tensors := g.tensors.map (Tensor.inPart part) }

/-! ## Mapping and releasing -/

def platMmapRo (disk : Bytes → Option Bytes) (path : Bytes) (p : Process) :
    Option (Region × Bytes) × Process :=
  match disk path with
  | none => (none, p)
  | some bytes =>
      let region : Region := { number := p.made.length, path := path, size := bytes.length }
      (some (region, bytes), { p with made := p.made ++ [region] })

def platMunmap (region : Option Region) (p : Process) : Process :=
  match region with
  | none => p
  | some region => { p with released := p.released ++ [region] }

def ggufClose (g : Handle) (p : Process) : Process :=
  match g.maps with
  | some maps => maps.foldl (fun p region => platMunmap region p) p
  | none => platMunmap g.map p

/-- A failure closes what the structure holds by then. -/
def mapOpenOne (mem : Memory) (disk : Bytes → Option Bytes) (path : Bytes) (p : Process) :
    Option Handle × Process :=
  match platMmapRo disk path p with
  | (none, p) => (none, ggufClose Handle.zero p)
  | (some (region, bytes), p) =>
      match if mem.file region then ggufOpenOne bytes else none with
      | none => (none, ggufClose { Handle.zero with map := some region } p)
      | some file =>
          (some { map := some region, maps := none, file := file.inPart region.number }, p)

/-! ## The parts -/

structure PartLoop where
  ok : Bool
  parts : List Handle
  total : Nat
  mapped : Nat
  process : Process

def loopParts (mem : Memory) (disk : Bytes → Option Bytes) (first : Bytes) (count expected : Nat) :
    Nat → Nat → PartLoop → PartLoop
  | 0, _, s => s
  | left + 1, i, s =>
      match splitPartPath first 0 count i with
      | none => { s with ok := false }
      | some path =>
          match mapOpenOne mem disk path s.process with
          | (none, p) => { s with ok := false, process := p }
          | (some part, p) =>
              let parts := s.parts.set i part
              if consistent (parts.headD Handle.zero).file part.file i count expected s.total
                  s.mapped part.mapSize then
                loopParts mem disk first count expected left (i + 1) {
                  ok := s.ok
                  parts := parts
                  total := s.total + part.file.tensors.length
                  mapped := s.mapped + part.mapSize
                  process := p
                }
              else { s with ok := false, parts := parts, process := p }

def closeParts (parts : List Handle) (p : Process) : Process :=
  parts.foldl (fun p part => ggufClose part p) p

/-- The first part with the tensors and the mappings of all. -/
def mergeParts (parts : List Handle) (mapped : Nat) : Handle where
  map := (parts.headD Handle.zero).map
  maps := some (parts.map Handle.map)
  file := {
    (parts.headD Handle.zero).file with
    maps := parts.flatMap fun part => part.file.maps
    mappedSize := mapped
    tensors := parts.flatMap fun part => part.file.tensors
  }

def startLoop (count : Nat) (p : Process) : PartLoop where
  ok := true
  parts := List.replicate count Handle.zero
  total := 0
  mapped := 0
  process := p

def openSplit (mem : Memory) (disk : Bytes → Option Bytes) (first : Bytes) (count expected : Nat)
    (p : Process) : Option Handle × Process :=
  if mem.parts then
    let s := loopParts mem disk first count expected count 0 (startLoop count p)
    if s.ok = true ∧ s.total = expected ∧ mem.merged = true then
      let g := mergeParts s.parts s.mapped
      let p := closeParts (s.parts.tail.map fun part => { part with map := none }) s.process
      if g.file.tensors.length > 1 ∧ (mem.names = false ∨
          (firstDuplicate (g.file.tensors.map Tensor.name)).isSome = true) then
        (none, ggufClose g p)
      else (some g, p)
    else (none, closeParts s.parts s.process)
  else (none, p)

def mapOpen (mem : Memory) (disk : Bytes → Option Bytes) (path : Bytes) (p : Process) :
    Option Handle × Process :=
  match mapOpenOne mem disk path p with
  | (none, p) => (none, p)
  | (some probe, p) =>
      let count := splitCount probe.file.kv
      if count ≤ 1 then (some probe, p)
      else
        let current := splitNo probe.file.kv
        let expected := splitTensors probe.file.kv
        if current ≥ count ∨ expected = uint32Max ∨ expected > 100000 ∨ count > expected ∨
            count > 10000 then (none, ggufClose probe p)
        else
          match splitPartPath path current count 0 with
          | none => (none, ggufClose probe p)
          | some first => openSplit mem disk first count expected (ggufClose probe p)

/-! ## Every mapping is owed once -/

def Handle.regions (g : Handle) : List Region :=
  match g.maps with
  | some maps => maps.reduceOption
  | none => g.map.toList

theorem munmap_released (region : Option Region) (p : Process) :
    platMunmap region p = { p with released := p.released ++ region.toList } := by
  cases region with
  | none => simp [platMunmap]
  | some region => rfl

theorem close_released (g : Handle) (p : Process) :
    ggufClose g p = { p with released := p.released ++ g.regions } := by
  rw [ggufClose, Handle.regions]
  cases g.maps with
  | none => exact munmap_released g.map p
  | some maps =>
      dsimp only
      induction maps generalizing p with
      | nil => simp
      | cons region maps induction =>
          rw [List.foldl_cons, induction, munmap_released]
          cases region <;> simp

theorem close_parts_released (parts : List Handle) (p : Process) :
    closeParts parts p = { p with released := p.released ++ parts.flatMap Handle.regions } := by
  rw [closeParts]
  induction parts generalizing p with
  | nil => simp
  | cons part parts induction =>
      rw [List.foldl_cons, induction, close_released, List.flatMap_cons, List.append_assoc]

/-- Everything made is released or still held, and nothing twice. -/
structure Owes (p : Process) (held : List Region) : Prop where
  each : (p.released ++ held).Perm p.made
  numbered : p.made.map Region.number = List.range p.made.length

theorem Owes.nodup {p : Process} {held : List Region} (owes : Owes p held) : p.made.Nodup := by
  apply List.Nodup.of_map Region.number
  rw [owes.numbered]
  exact List.nodup_range

theorem Owes.close {p : Process} {held : List Region} {g : Handle}
    (owes : Owes p (held ++ g.regions)) : Owes (ggufClose g p) held := by
  rw [close_released]
  refine ⟨?_, owes.numbered⟩
  have swapped : (p.released ++ g.regions ++ held).Perm (p.released ++ (held ++ g.regions)) := by
    rw [List.append_assoc]
    exact List.Perm.append_left _ List.perm_append_comm
  exact swapped.trans owes.each

theorem map_open_one_owes (mem : Memory) (disk : Bytes → Option Bytes) (path : Bytes)
    {p : Process} {held : List Region} (owes : Owes p held) :
    match mapOpenOne mem disk path p with
    | (none, p') => Owes p' held
    | (some g, p') => Owes p' (held ++ g.regions) ∧ g.maps = none := by
  have made (region : Region) (numbered : region.number = p.made.length) :
      Owes { p with made := p.made ++ [region] } (held ++ [region]) := by
    constructor
    · rw [← List.append_assoc]
      exact owes.each.append_right [region]
    · rw [List.map_append, owes.numbered, List.length_append, List.length_singleton,
        List.range_succ]
      simp [numbered]
  rw [mapOpenOne, platMmapRo]
  cases disk path with
  | none =>
      dsimp only
      rw [close_released]
      simpa [Handle.regions, Handle.zero] using owes
  | some bytes =>
      dsimp only
      have fresh := made { number := p.made.length, path := path, size := bytes.length } rfl
      generalize (if mem.file { number := p.made.length, path := path, size := bytes.length } then
        ggufOpenOne bytes else none) = read
      cases read with
      | none => exact Owes.close fresh
      | some file => exact ⟨fresh, rfl⟩

theorem zero_regions (n : Nat) : (List.replicate n Handle.zero).flatMap Handle.regions = [] := by
  simp [Handle.regions, Handle.zero]

theorem loop_parts_owes (mem : Memory) (disk : Bytes → Option Bytes) (first : Bytes)
    (count expected : Nat) {left i : Nat} {s : PartLoop} {opened : List Handle}
    {held : List Region} (shape : s.parts = opened ++ List.replicate left Handle.zero)
    (place : opened.length = i) (owes : Owes s.process (held ++ opened.flatMap Handle.regions))
    (single : ∀ part ∈ opened, part.maps = none) :
    Owes (loopParts mem disk first count expected left i s).process
        (held ++ (loopParts mem disk first count expected left i s).parts.flatMap Handle.regions) ∧
      ∀ part ∈ (loopParts mem disk first count expected left i s).parts, part.maps = none := by
  have stopped {parts : List Handle} (k : Nat) {p : Process}
      (owes : Owes p (held ++ parts.flatMap Handle.regions))
      (single : ∀ part ∈ parts, part.maps = none) :
      Owes p (held ++ (parts ++ List.replicate k Handle.zero).flatMap Handle.regions) ∧
        ∀ part ∈ parts ++ List.replicate k Handle.zero, part.maps = none := by
    rw [List.flatMap_append, zero_regions, List.append_nil]
    refine ⟨owes, ?_⟩
    intro part inside
    rcases List.mem_append.mp inside with early | late
    · exact single part early
    · rw [List.eq_of_mem_replicate late]
      rfl
  induction left generalizing i s opened with
  | zero =>
      rw [loopParts, shape]
      exact stopped 0 owes single
  | succ left induction =>
      rw [loopParts]
      cases splitPartPath first 0 count i with
      | none =>
          dsimp only
          rw [shape]
          exact stopped (left + 1) owes single
      | some path =>
          dsimp only
          have opens := map_open_one_owes mem disk path owes
          rcases one : mapOpenOne mem disk path s.process with ⟨_ | part, p⟩
          · rw [one] at opens
            dsimp only
            rw [shape]
            exact stopped (left + 1) opens single
          · rw [one] at opens
            have parts : s.parts.set i part =
                (opened ++ [part]) ++ List.replicate left Handle.zero := by
              rw [shape, ← place, List.set_append_right _ _ (Nat.le_refl _), Nat.sub_self,
                List.replicate_succ, List.set_cons_zero, List.append_assoc]
              rfl
            have more : Owes p (held ++ (opened ++ [part]).flatMap Handle.regions) := by
              rw [List.flatMap_append, List.flatMap_singleton, ← List.append_assoc]
              exact opens.1
            have all : ∀ other ∈ opened ++ [part], other.maps = none := by
              intro other inside
              rcases List.mem_append.mp inside with early | last
              · exact single other early
              · rw [List.mem_singleton.mp last]
                exact opens.2
            dsimp only
            rw [parts]
            split_ifs with fine
            · apply induction rfl _ more all
              rw [List.length_append, place]
              rfl
            · exact stopped left more all

theorem regions_of_single {parts : List Handle} (single : ∀ part ∈ parts, part.maps = none) :
    (parts.map Handle.map).reduceOption = parts.flatMap Handle.regions := by
  induction parts with
  | nil => rfl
  | cons part parts induction =>
      have rest := induction fun other inside => single other (List.mem_cons_of_mem part inside)
      rw [List.map_cons, List.flatMap_cons, ← rest, Handle.regions,
        single part List.mem_cons_self]
      cases part.map with
      | none => rfl
      | some region => rfl

theorem unmapped_regions {parts : List Handle} (single : ∀ part ∈ parts, part.maps = none) :
    (parts.map fun part => { part with map := none }).flatMap Handle.regions = [] := by
  induction parts with
  | nil => rfl
  | cons part parts induction =>
      have rest := induction fun other inside => single other (List.mem_cons_of_mem part inside)
      rw [List.map_cons, List.flatMap_cons, rest, Handle.regions]
      dsimp only
      rw [single part List.mem_cons_self]
      rfl

/-- The outcome of an opening: a failure holds nothing of its own, a success its mappings. -/
def Settled (held : List Region) : Option Handle × Process → Prop
  | (none, p) => Owes p held
  | (some g, p) => Owes p (held ++ g.regions)

theorem open_split_settled (mem : Memory) (disk : Bytes → Option Bytes) (first : Bytes)
    (count expected : Nat) {p : Process} {held : List Region} (owes : Owes p held) :
    Settled held (openSplit mem disk first count expected p) := by
  rw [openSplit]
  split_ifs with table
  · have start : Owes p (held ++ ([] : List Handle).flatMap Handle.regions) := by
      rw [List.flatMap_nil, List.append_nil]
      exact owes
    obtain ⟨ends, single⟩ := @loop_parts_owes mem disk first count expected count 0
      (startLoop count p) [] held rfl rfl start (by simp)
    generalize loopParts mem disk first count expected count 0 (startLoop count p) = s
      at ends single
    dsimp only
    have moved : closeParts (s.parts.tail.map fun part => { part with map := none }) s.process =
        s.process := by
      rw [close_parts_released, unmapped_regions, List.append_nil]
      intro part inside
      exact single part (List.mem_of_mem_tail inside)
    have merged : (mergeParts s.parts s.mapped).regions = s.parts.flatMap Handle.regions :=
      regions_of_single single
    split_ifs with fine duplicate
    · apply Owes.close
      rw [moved, merged]
      exact ends
    · rw [Settled, moved, merged]
      exact ends
    · rw [Settled, close_parts_released]
      constructor
      · have swapped : (s.process.released ++ s.parts.flatMap Handle.regions ++ held).Perm
            (s.process.released ++ (held ++ s.parts.flatMap Handle.regions)) := by
          rw [List.append_assoc]
          exact List.Perm.append_left _ List.perm_append_comm
        exact swapped.trans ends.each
      · exact ends.numbered
  · exact owes

/-- However the opening ends, nothing is lost and nothing released twice. -/
theorem map_open_settled (mem : Memory) (disk : Bytes → Option Bytes) (path : Bytes)
    {p : Process} {held : List Region} (owes : Owes p held) :
    Settled held (mapOpen mem disk path p) := by
  have opens := map_open_one_owes mem disk path owes
  rw [mapOpen]
  rcases one : mapOpenOne mem disk path p with ⟨_ | probe, p'⟩
  · rw [one] at opens
    exact opens
  · rw [one] at opens
    dsimp only
    split_ifs with alone invalid
    · exact opens.1
    · exact Owes.close opens.1
    · cases splitPartPath path (splitNo probe.file.kv) (splitCount probe.file.kv) 0 with
      | none => exact Owes.close opens.1
      | some first => exact open_split_settled mem disk first _ _ (Owes.close opens.1)

end GridcoreRunner.Gguf
