import GridcoreRunner.Gguf.Mappings

/-!
# A split set opens to one table

Where memory is ample the opening with mappings gives what `ggufOpen` gives, the pointers renamed
to the mappings they point into. The loop records for every part its file and its mapping, and
these depend on the names of the set and on the number of mappings made before.
-/

namespace GridcoreRunner.Gguf

set_option autoImplicit false

/-! ## The loop keeps a record of each part -/

/-- The handle of a part that is opened on its own. -/
def partHandle (part : GgufFile × Region) : Handle where
  map := some part.2
  maps := none
  file := part.1.inPart part.2.number

/-- The parts opened so far: each file under its name, each mapping by its number. -/
structure Recorded (disk : Bytes → Option Bytes) (first : Bytes) (count base i : Nat)
    (part : GgufFile × Region) : Prop where
  named : splitPartPath first 0 count i = some part.2.path
  opens : ∃ bytes, disk part.2.path = some bytes ∧ ggufOpenOne bytes = some part.1 ∧
    part.2.size = bytes.length
  number : part.2.number = base + i

def Records (disk : Bytes → Option Bytes) (first : Bytes) (count base : Nat)
    (all : List (GgufFile × Region)) : Prop :=
  ∀ i part, all[i]? = some part → Recorded disk first count base i part

theorem Records.snoc {disk : Bytes → Option Bytes} {first : Bytes} {count base : Nat}
    {all : List (GgufFile × Region)} {part : GgufFile × Region}
    (records : Records disk first count base all)
    (next : Recorded disk first count base all.length part) :
    Records disk first count base (all ++ [part]) := by
  intro i other place
  by_cases early : i < all.length
  · rw [List.getElem?_append_left early] at place
    exact records i other place
  · rw [List.getElem?_append_right (Nat.le_of_not_lt early)] at place
    have last : i - all.length = 0 := by
      by_contra later
      rw [List.getElem?_eq_none (by rw [List.length_singleton]; omega)] at place
      cases place
    rw [last] at place
    cases place
    have same : i = all.length := by omega
    rw [same]
    exact next

/-- Files and mappings of two records of one set are the same. -/
theorem Records.unique {disk : Bytes → Option Bytes} {first : Bytes} {count base : Nat}
    {all other : List (GgufFile × Region)} (left : Records disk first count base all)
    (right : Records disk first count base other)
    (files : all.map Prod.fst = other.map Prod.fst) : all = other := by
  have size : all.length = other.length := by
    have sizes := congrArg List.length files
    rw [List.length_map, List.length_map] at sizes
    exact sizes
  apply List.ext_getElem size
  intro i inAll inOther
  have here := left i _ (List.getElem?_eq_getElem inAll)
  have there := right i _ (List.getElem?_eq_getElem inOther)
  have path : all[i].2.path = other[i].2.path :=
    Option.some.inj (here.named.symm.trans there.named)
  obtain ⟨bytes, found, opened, length⟩ := here.opens
  obtain ⟨bytes', found', opened', length'⟩ := there.opens
  rw [path, found'] at found
  cases found
  rw [opened'] at opened
  have file : all[i].1 = other[i].1 := (Option.some.inj opened).symm
  have number := here.number.trans there.number.symm
  exact Prod.ext file (Region.ext number path (length.trans length'.symm))

theorem consistent_in_part (head part : GgufFile)
    (m k i count expected total mapped mapSize : Nat) :
    consistent (head.inPart m) (part.inPart k) i count expected total mapped mapSize =
      consistent head part i count expected total mapped mapSize := by
  simp [consistent, GgufFile.inPart]

/-- The mapping the next call of `plat_mmap_ro` makes. -/
def Process.next (p : Process) (path bytes : Bytes) : Region where
  number := p.made.length
  path := path
  size := bytes.length

theorem map_open_one_none {disk : Bytes → Option Bytes} {path : Bytes}
    (nothing : (disk path).bind ggufOpenOne = none) (p : Process) :
    (mapOpenOne Memory.ample disk path p).1 = none := by
  rw [mapOpenOne, platMmapRo]
  cases there : disk path with
  | none => rfl
  | some bytes =>
      rw [there, Option.bind_some] at nothing
      simp [Memory.ample, nothing]

theorem map_open_one_some {disk : Bytes → Option Bytes} {path bytes : Bytes} {file : GgufFile}
    (there : disk path = some bytes) (opened : ggufOpenOne bytes = some file) (p : Process) :
    mapOpenOne Memory.ample disk path p = (some (partHandle (file, p.next path bytes)),
      { p with made := p.made ++ [p.next path bytes] }) := by
  rw [mapOpenOne, platMmapRo, there]
  simp only [Memory.ample, if_true, opened]
  rfl

theorem loop_parts_agree (disk : Bytes → Option Bytes) (first : Bytes) (count expected base : Nat)
    {left i : Nat} {s : PartLoop} {all : List (GgufFile × Region)}
    (shape : s.parts = all.map partHandle ++ List.replicate left Handle.zero)
    (place : all.length = i) (fine : s.ok = true) (records : Records disk first count base all)
    (made : s.process.made.length = base + i) :
    match openParts disk first count expected left i (all.map Prod.fst) s.total s.mapped with
    | none => ¬((loopParts Memory.ample disk first count expected left i s).ok = true ∧
        (loopParts Memory.ample disk first count expected left i s).total = expected)
    | some (files, sum) =>
        (loopParts Memory.ample disk first count expected left i s).ok = true ∧
          (loopParts Memory.ample disk first count expected left i s).total = expected ∧
          (loopParts Memory.ample disk first count expected left i s).mapped = sum ∧
            ∃ more, (loopParts Memory.ample disk first count expected left i s).parts =
                more.map partHandle ∧ files = more.map Prod.fst ∧
              Records disk first count base more := by
  induction left generalizing i s all with
  | zero =>
      rw [openParts, loopParts]
      by_cases whole : s.total = expected
      · rw [if_pos whole]
        refine ⟨fine, whole, rfl, all, ?_, rfl, records⟩
        rw [shape]
        exact List.append_nil _
      · rw [if_neg whole]
        exact fun both => whole both.2
  | succ left induction =>
      rw [openParts, loopParts]
      cases named : splitPartPath first 0 count i with
      | none => exact fun both => Bool.false_ne_true both.1
      | some path =>
          simp only [Option.bind_eq_bind, Option.bind_some]
          cases read : (disk path).bind ggufOpenOne with
          | none =>
              have fails := map_open_one_none read s.process
              have nothing : ((disk path).bind fun map => (ggufOpenOne map).bind fun part =>
                  if consistent ((all.map Prod.fst).headD part) part i count expected s.total
                      s.mapped map.length then
                    openParts disk first count expected left (i + 1) (all.map Prod.fst ++ [part])
                      (s.total + part.tensors.length) (s.mapped + map.length)
                  else none) = none := by
                cases there : disk path with
                | none => rfl
                | some map =>
                    rw [there, Option.bind_some] at read
                    rw [Option.bind_some, read, Option.bind_none]
              rw [nothing]
              rcases one : mapOpenOne Memory.ample disk path s.process with ⟨_ | part, p⟩
              · exact fun both => Bool.false_ne_true both.1
              · rw [one] at fails
                cases fails
          | some file =>
              obtain ⟨bytes, there, opened⟩ := Option.bind_eq_some_iff.mp read
              rw [map_open_one_some there opened, there, Option.bind_some, opened,
                Option.bind_some]
              have parts : s.parts.set i (partHandle (file, s.process.next path bytes)) =
                  (all ++ [(file, s.process.next path bytes)]).map partHandle ++
                    List.replicate left Handle.zero := by
                rw [shape, ← place, List.set_append_right _ _ (by rw [List.length_map]),
                  List.length_map, Nat.sub_self, List.replicate_succ, List.set_cons_zero,
                  List.map_append, List.append_assoc]
                rfl
              have head : ∃ m, (((all ++ [(file, s.process.next path bytes)]).map partHandle ++
                  List.replicate left Handle.zero).headD Handle.zero).file =
                    ((all.map Prod.fst).headD file).inPart m := by
                cases all with
                | nil => exact ⟨_, rfl⟩
                | cons part all => exact ⟨_, rfl⟩
              obtain ⟨m, head⟩ := head
              have same := consistent_in_part ((all.map Prod.fst).headD file) file m
                (s.process.next path bytes).number i count expected s.total s.mapped bytes.length
              have next : Records disk first count base
                  (all ++ [(file, s.process.next path bytes)]) := by
                apply records.snoc
                rw [place]
                exact ⟨named, ⟨bytes, there, opened, rfl⟩, made⟩
              have count_ : (partHandle (file, s.process.next path bytes)).file.tensors.length =
                  file.tensors.length := List.length_map _
              have size : (partHandle (file, s.process.next path bytes)).mapSize =
                  bytes.length := rfl
              have part : (partHandle (file, s.process.next path bytes)).file =
                  file.inPart (s.process.next path bytes).number := rfl
              dsimp only
              rw [parts, head, size, part, same]
              by_cases fits : consistent ((all.map Prod.fst).headD file) file i count expected
                  s.total s.mapped bytes.length = true
              · rw [if_pos fits, if_pos fits]
                have rest := @induction (i + 1) {
                  ok := s.ok
                  parts := (all ++ [(file, s.process.next path bytes)]).map partHandle ++
                    List.replicate left Handle.zero
                  total := s.total + file.tensors.length
                  mapped := s.mapped + bytes.length
                  process := {
                    s.process with
                    made := s.process.made ++ [s.process.next path bytes]
                  }
                } (all ++ [(file, s.process.next path bytes)]) rfl
                  (by rw [List.length_append, place]; rfl) fine next
                  (by rw [List.length_append, made]; rfl)
                rw [List.map_append] at rest
                rw [← part, count_]
                exact rest
              · rw [if_neg fits, if_neg fits]
                exact fun both => Bool.false_ne_true both.1

/-! ## The merged table -/

theorem duplicate_needs_two {names : List Bytes}
    (duplicate : (firstDuplicate names).isSome = true) : 1 < names.length := by
  by_contra few
  apply first_duplicate_not_some.mpr _ duplicate
  rcases names with _ | ⟨name, _ | ⟨other, rest⟩⟩
  · exact List.nodup_nil
  · exact List.nodup_singleton name
  · simp at few

/-- The merged handle of recorded parts, or nothing when two tensors share a name. -/
def settledParts (all : List (GgufFile × Region)) (mapped : Nat) : Option Handle :=
  if (firstDuplicate ((mergeParts (all.map partHandle) mapped).file.tensors.map
      Tensor.name)).isSome = true then none
  else some (mergeParts (all.map partHandle) mapped)

theorem open_split_agrees (disk : Bytes → Option Bytes) (first : Bytes) (count expected : Nat)
    (p : Process) :
    match openParts disk first count expected count 0 [] 0 0 with
    | none => (openSplit Memory.ample disk first count expected p).1 = none
    | some (files, sum) => ∃ all, files = all.map Prod.fst ∧
        Records disk first count p.made.length all ∧
          (openSplit Memory.ample disk first count expected p).1 = settledParts all sum := by
  have loop := @loop_parts_agree disk first count expected p.made.length count 0
    (startLoop count p) [] rfl rfl rfl (fun i part place => by cases place) rfl
  have granted : Memory.ample.parts = true := rfl
  rw [openSplit, if_pos granted]
  dsimp only
  rw [List.map_nil] at loop
  generalize loopParts Memory.ample disk first count expected count 0 (startLoop count p) = s
    at loop ⊢
  cases opened : openParts disk first count expected count 0 [] 0 0 with
  | none =>
      have same : openParts disk first count expected count 0 [] (startLoop count p).total
          (startLoop count p).mapped = none := opened
      rw [same] at loop
      have fails : ¬(s.ok = true ∧ s.total = expected ∧ Memory.ample.merged = true) :=
        fun whole => loop ⟨whole.1, whole.2.1⟩
      dsimp only
      rw [if_neg fails]
  | some result =>
      have same : openParts disk first count expected count 0 [] (startLoop count p).total
          (startLoop count p).mapped = some result := opened
      rw [same] at loop
      obtain ⟨fine, whole, sum, all, parts, files, records⟩ := loop
      refine ⟨all, files, records, ?_⟩
      have passes : s.ok = true ∧ s.total = expected ∧ Memory.ample.merged = true :=
        ⟨fine, whole, rfl⟩
      rw [if_pos passes, parts, sum, settledParts]
      by_cases duplicate : (firstDuplicate ((mergeParts (all.map partHandle)
          result.2).file.tensors.map Tensor.name)).isSome = true
      · have two := duplicate_needs_two duplicate
        rw [List.length_map] at two
        rw [if_pos ⟨two, Or.inr duplicate⟩, if_pos duplicate]
      · have apart : ¬((mergeParts (all.map partHandle) result.2).file.tensors.length > 1 ∧
            (Memory.ample.names = false ∨ (firstDuplicate ((mergeParts (all.map partHandle)
              result.2).file.tensors.map Tensor.name)).isSome = true)) := by
          rintro ⟨_, names | again⟩
          · cases names
          · exact duplicate again
        rw [if_neg duplicate, if_neg apart]

def Tensor.located (numbers : List Nat) (t : Tensor) : Tensor :=
  { t with data := t.data.map fun pointer =>
      { pointer with part := numbers.getD pointer.part 0 } }

/-- The pointers of a file by the numbers of its mappings. -/
def GgufFile.located (numbers : List Nat) (g : GgufFile) : GgufFile :=
  { g with tensors := g.tensors.map (Tensor.located numbers) }

theorem located_in_part (numbers : List Nat) (part : Nat) (t : Tensor) :
    (t.inPart part).located numbers = t.inPart (numbers.getD part 0) := by
  rw [Tensor.located, Tensor.inPart, Tensor.inPart]
  cases t.data <;> rfl

/-- The merged tensors are those of the parts one after the other, in the mappings of their own. -/
theorem merged_located (all : List (GgufFile × Region)) :
    (mergedTensors (all.map Prod.fst)).map
        (Tensor.located (all.map fun part => part.2.number)) =
      all.flatMap fun part => part.1.tensors.map (Tensor.inPart part.2.number) := by
  have blocks : ((all.map Prod.fst).zipIdx.map fun part =>
      (part.1.tensors.map (Tensor.inPart part.2)).map
        (Tensor.located (all.map fun part => part.2.number))) =
          all.map fun part => part.1.tensors.map (Tensor.inPart part.2.number) := by
    apply List.ext_getElem?
    intro i
    rw [List.getElem?_map, List.getElem?_map, List.getElem?_zipIdx, List.getElem?_map]
    cases place : all[i]? with
    | none => rfl
    | some part =>
        have number : (all.map fun part => part.2.number).getD i 0 = part.2.number := by
          rw [List.getD_eq_getElem?_getD, List.getElem?_map, place]
          rfl
        simp only [Option.map_some, Nat.zero_add, List.map_map, Function.comp_def,
          located_in_part, number]
  rw [mergedTensors, List.map_flatten, List.map_map, List.flatMap_def, ← blocks]
  rfl

theorem merge_parts_tensors (all : List (GgufFile × Region)) (mapped : Nat) :
    (mergeParts (all.map partHandle) mapped).file.tensors =
      all.flatMap fun part => part.1.tensors.map (Tensor.inPart part.2.number) := by
  have joined : ((all.map partHandle).flatMap fun part => part.file.tensors) =
      all.flatMap fun part => part.1.tensors.map (Tensor.inPart part.2.number) := by
    rw [List.flatMap_map]
    rfl
  exact joined

theorem merge_parts_names (all : List (GgufFile × Region)) (mapped : Nat) :
    (mergeParts (all.map partHandle) mapped).file.tensors.map Tensor.name =
      (mergedTensors (all.map Prod.fst)).map Tensor.name := by
  rw [merge_parts_tensors, ← merged_located, List.map_map]
  rfl

theorem merge_parts_regions (all : List (GgufFile × Region)) (mapped : Nat) :
    (mergeParts (all.map partHandle) mapped).regions = all.map Prod.snd := by
  rw [Handle.regions, mergeParts, List.map_map]
  induction all with
  | nil => rfl
  | cons part all induction => exact congrArg (part.2 :: ·) induction

/-! ## The opening with mappings gives the table of the files -/

theorem located_single {bytes : Bytes} {file : GgufFile} (opened : ggufOpenOne bytes = some file)
    (number : Nat) : file.located [number] = file.inPart number := by
  have tensors : file.tensors.map (Tensor.located [number]) =
      file.tensors.map (Tensor.inPart number) := by
    apply List.map_congr_left
    intro t inside
    obtain ⟨safe, only⟩ := open_one_safe opened
    cases held : t.data with
    | none => rw [Tensor.located, Tensor.inPart, held]; rfl
    | some pointer =>
        have supported : ggmlTypeSupported t.type = true := by
          by_contra other
          have nothing := ((safe.tensors t inside).none (Bool.eq_false_iff.mpr other)).1
          rw [held] at nothing
          cases nothing
        obtain ⟨other, map, data, mapped, _⟩ := (safe.tensors t inside).inside supported
        rw [held] at data
        cases data
        have first : pointer.part = 0 := by
          by_contra later
          rw [only, List.getElem?_eq_none (by rw [List.length_singleton]; omega)] at mapped
          cases mapped
        rw [Tensor.located, Tensor.inPart, held, Option.map_some, Option.map_some, first]
        rfl
  rw [GgufFile.located, GgufFile.inPart, tensors]

theorem merge_parts_file {all : List (GgufFile × Region)} {head : GgufFile} (mapped : Nat)
    (front : (all.map Prod.fst).head? = some head) :
    (mergeParts (all.map partHandle) mapped).file = GgufFile.located
      ((mergeParts (all.map partHandle) mapped).regions.map Region.number) { head with
        maps := (all.map Prod.fst).flatMap GgufFile.maps
        mappedSize := mapped
        tensors := mergedTensors (all.map Prod.fst)
      } := by
  cases all with
  | nil => cases front
  | cons part all =>
      cases front
      have numbers : ((mergeParts ((part :: all).map partHandle) mapped).regions.map
          Region.number) = (part :: all).map fun part => part.2.number := by
        rw [merge_parts_regions, List.map_map]
        rfl
      have tensors := (merge_parts_tensors (part :: all) mapped).trans
        (merged_located (part :: all)).symm
      rw [numbers]
      simp only [mergeParts, GgufFile.located, List.flatMap_map] at tensors ⊢
      rw [tensors]
      rfl

/-- The result of an opening and the table it stands for. -/
def Handle.Shows (h : Handle) (g : GgufFile) : Prop :=
  h.file = g.located (h.regions.map Region.number)

theorem map_open_refines (disk : Bytes → Option Bytes) (path : Bytes) (p : Process) :
    Option.Rel Handle.Shows (mapOpen Memory.ample disk path p).1 (ggufOpen disk path) := by
  rw [mapOpen, ggufOpen]
  cases read : (disk path).bind ggufOpenOne with
  | none =>
      have fails := map_open_one_none read p
      rcases one : mapOpenOne Memory.ample disk path p with ⟨_ | part, p'⟩
      · cases there : disk path with
        | none => exact Option.Rel.none
        | some map =>
            rw [there, Option.bind_some] at read
            simp only [Option.bind_eq_bind, Option.bind_some, read, Option.bind_none]
            exact Option.Rel.none
      · rw [one] at fails
        cases fails
  | some probe =>
      obtain ⟨bytes, there, opened⟩ := Option.bind_eq_some_iff.mp read
      rw [map_open_one_some there opened, there]
      simp only [Option.bind_eq_bind, Option.bind_some, opened]
      have kv : (partHandle (probe, p.next path bytes)).file.kv = probe.kv := rfl
      rw [kv]
      split_ifs with alone invalid
      · exact Option.Rel.some (located_single opened _).symm
      · exact Option.Rel.none
      · cases named : splitPartPath path (splitNo probe.kv) (splitCount probe.kv) 0 with
        | none => exact Option.Rel.none
        | some first =>
            dsimp only [Option.bind_some]
            have loop := open_split_agrees disk first (splitCount probe.kv) (splitTensors probe.kv)
              (ggufClose (partHandle (probe, p.next path bytes))
                { p with made := p.made ++ [p.next path bytes] })
            cases parts : openParts disk first (splitCount probe.kv) (splitTensors probe.kv)
                (splitCount probe.kv) 0 [] 0 0 with
            | none =>
                rw [parts] at loop
                rw [loop]
                exact Option.Rel.none
            | some result =>
                rw [parts] at loop
                obtain ⟨all, files, records, outcome⟩ := loop
                obtain ⟨more, joined, long, _⟩ := open_parts_some parts
                have some_ : result.1 ≠ [] := by
                  intro nothing
                  rw [joined] at nothing
                  rw [List.nil_append] at nothing
                  rw [nothing] at long
                  simp at long
                  omega
                obtain ⟨head, front⟩ := Option.ne_none_iff_exists'.mp
                  (fun nothing => some_ (List.head?_eq_none_iff.mp nothing))
                rw [outcome, settledParts, merge_parts_names]
                rw [Option.bind_some, front, Option.bind_some, ← files]
                split_ifs with duplicate
                · exact Option.Rel.none
                · apply Option.Rel.some
                  rw [files] at front ⊢
                  exact merge_parts_file result.2 front

/-! ## Short memory only refuses -/

theorem map_open_one_granted {mem : Memory} {disk : Bytes → Option Bytes} {path : Bytes}
    {p p' : Process} {g : Handle} (opened : mapOpenOne mem disk path p = (some g, p')) :
    mapOpenOne Memory.ample disk path p = (some g, p') := by
  rw [mapOpenOne, platMmapRo] at opened ⊢
  cases there : disk path with
  | none =>
      rw [there] at opened
      cases opened
  | some bytes =>
      rw [there] at opened
      dsimp only at opened ⊢
      cases granted : mem.file { number := p.made.length, path := path, size := bytes.length } with
      | false =>
          rw [granted] at opened
          cases opened
      | true =>
          rw [granted] at opened
          exact opened

theorem loop_parts_granted {mem : Memory} {disk : Bytes → Option Bytes} {first : Bytes}
    {count expected left i : Nat} {s : PartLoop}
    (whole : (loopParts mem disk first count expected left i s).ok = true) :
    loopParts Memory.ample disk first count expected left i s =
      loopParts mem disk first count expected left i s := by
  induction left generalizing i s with
  | zero => rfl
  | succ left induction =>
      rw [loopParts] at whole ⊢
      rw [loopParts]
      cases named : splitPartPath first 0 count i with
      | none => rfl
      | some path =>
          rw [named] at whole
          dsimp only at whole ⊢
          rcases one : mapOpenOne mem disk path s.process with ⟨_ | part, p⟩
          · rw [one] at whole
            cases whole
          · rw [one] at whole
            rw [map_open_one_granted one]
            dsimp only at whole ⊢
            split_ifs at whole ⊢ with fits
            exact induction whole

theorem open_split_granted {mem : Memory} {disk : Bytes → Option Bytes} {first : Bytes}
    {count expected : Nat} {p : Process} {h : Handle}
    (opened : (openSplit mem disk first count expected p).1 = some h) :
    (openSplit Memory.ample disk first count expected p).1 = some h := by
  rw [openSplit] at opened ⊢
  split_ifs at opened with table
  dsimp only at opened ⊢
  have granted : Memory.ample.parts = true := rfl
  rw [if_pos granted]
  split_ifs at opened with whole duplicate
  rw [loop_parts_granted whole.1]
  have passes : (loopParts mem disk first count expected count 0 (startLoop count p)).ok = true ∧
      (loopParts mem disk first count expected count 0 (startLoop count p)).total = expected ∧
        Memory.ample.merged = true := ⟨whole.1, whole.2.1, rfl⟩
  rw [if_pos passes, if_neg]
  · exact opened
  · rintro ⟨two, names | again⟩
    · cases names
    · exact duplicate ⟨two, Or.inr again⟩

theorem map_open_granted {mem : Memory} {disk : Bytes → Option Bytes} {path : Bytes} {p : Process}
    {h : Handle} (opened : (mapOpen mem disk path p).1 = some h) :
    (mapOpen Memory.ample disk path p).1 = some h := by
  rw [mapOpen] at opened ⊢
  rcases one : mapOpenOne mem disk path p with ⟨_ | probe, p'⟩
  · rw [one] at opened
    cases opened
  · rw [one] at opened
    rw [map_open_one_granted one]
    dsimp only at opened ⊢
    split_ifs at opened ⊢ with alone invalid
    · exact opened
    · cases named : splitPartPath path (splitNo probe.file.kv) (splitCount probe.file.kv) 0 with
      | none =>
          rw [named] at opened
          cases opened
      | some first =>
          rw [named] at opened
          exact open_split_granted opened

/-! ## Every part is an entry to the same set -/

/-- What the probe checks of the numbers of a set. -/
def Limits (count expected : Nat) : Prop :=
  ¬(expected = uint32Max ∨ expected > 100000 ∨ count > expected ∨ count > 10000)

theorem open_split_same {disk : Bytes → Option Bytes} {first : Bytes} {count expected : Nat}
    {p p' : Process} (made : p.made.length = p'.made.length) :
    (openSplit Memory.ample disk first count expected p).1 =
      (openSplit Memory.ample disk first count expected p').1 := by
  have left := open_split_agrees disk first count expected p
  have right := open_split_agrees disk first count expected p'
  cases opened : openParts disk first count expected count 0 [] 0 0 with
  | none =>
      rw [opened] at left right
      rw [left, right]
  | some result =>
      rw [opened] at left right
      obtain ⟨all, files, records, outcome⟩ := left
      obtain ⟨other, files', records', outcome'⟩ := right
      rw [← made] at records'
      rw [outcome, outcome', records.unique records' (files.symm.trans files')]

/-- The process behind the probe. -/
def probed (file : GgufFile) (path bytes : Bytes) (p : Process) : Process :=
  ggufClose (partHandle (file, p.next path bytes)) { p with made := p.made ++ [p.next path bytes] }

theorem probed_made (file : GgufFile) (path bytes : Bytes) (p : Process) :
    (probed file path bytes p).made.length = p.made.length + 1 := by
  rw [probed, close_released, List.length_append]
  rfl

theorem map_open_of_part {disk : Bytes → Option Bytes} {stem bytes : Bytes} {n j expected : Nat}
    {file : GgufFile} (there : disk (partPath stem n j) = some bytes)
    (opened : ggufOpenOne bytes = some file) (many : 1 < n) (inside : j < n)
    (number : splitNo file.kv = j) (counted : splitCount file.kv = n)
    (declared : splitTensors file.kv = expected) (limits : Limits n expected)
    (short : (partPath stem n 0).length < 4096) (p : Process) :
    (mapOpen Memory.ample disk (partPath stem n j) p).1 =
      (openSplit Memory.ample disk (partPath stem n 0) n expected
        (probed file (partPath stem n j) bytes p)).1 := by
  rw [mapOpen, map_open_one_some there opened]
  dsimp only
  have kv : (partHandle (file, p.next (partPath stem n j) bytes)).file.kv = file.kv := rfl
  have valid : ¬(j ≥ n ∨ expected = uint32Max ∨ expected > 100000 ∨ n > expected ∨ n > 10000) := by
    rintro (far | wrong)
    · omega
    · exact limits wrong
  rw [kv, number, counted, declared, if_neg (by omega), if_neg valid, split_part_path_own,
    if_pos short]
  rfl

theorem part_of_map_open {disk : Bytes → Option Bytes} {stem bytes : Bytes} {n j : Nat}
    {file : GgufFile} {h : Handle} {p : Process} (there : disk (partPath stem n j) = some bytes)
    (opened : ggufOpenOne bytes = some file) (many : 1 < splitCount file.kv)
    (outcome : (mapOpen Memory.ample disk (partPath stem n j) p).1 = some h) :
    Limits n (splitTensors file.kv) ∧ (partPath stem n 0).length < 4096 ∧
      splitCount file.kv = n ∧
        (openSplit Memory.ample disk (partPath stem n 0) n (splitTensors file.kv)
          (probed file (partPath stem n j) bytes p)).1 = some h := by
  rw [mapOpen, map_open_one_some there opened] at outcome
  dsimp only at outcome
  have kv : (partHandle (file, p.next (partPath stem n j) bytes)).file.kv = file.kv := rfl
  rw [kv, if_neg (by omega)] at outcome
  split_ifs at outcome with invalid
  cases named : splitPartPath (partPath stem n j) (splitNo file.kv) (splitCount file.kv) 0 with
  | none =>
      rw [named] at outcome
      cases outcome
  | some first =>
      rw [named] at outcome
      obtain ⟨number, counted, same, short⟩ := split_part_path_some named
      rw [same] at outcome short
      rw [counted] at invalid outcome
      exact ⟨fun wrong => invalid (Or.inr wrong), short, counted, outcome⟩

/-- One part of an opened set: its file under its name, its mapping, and its tensors inside. -/
structure PartOf (disk : Bytes → Option Bytes) (stem : Bytes) (n total i : Nat)
    (part : GgufFile × Region) : Prop where
  path : part.2.path = partPath stem n i
  opens : ∃ bytes, disk part.2.path = some bytes ∧ ggufOpenOne bytes = some part.1 ∧
    part.2.size = bytes.length
  declared : splitTensors part.1.kv = total
  inside : ∀ t ∈ part.1.tensors, ∀ pointer, t.data = some pointer →
    pointer.pos + t.nbytes ≤ part.2.size

/-- The table of a set: the tensors of each part once and in order, each in its part's mapping. -/
structure OneTable (disk : Bytes → Option Bytes) (stem : Bytes) (n : Nat) (h : Handle)
    (all : List (GgufFile × Region)) : Prop where
  count : all.length = n
  parts : ∀ i part, all[i]? = some part → PartOf disk stem n h.file.tensors.length i part
  mappings : h.maps = some (all.map fun part => some part.2)
  apart : (all.map fun part => part.2.number).Nodup
  tensors : h.file.tensors =
    all.flatMap fun part => part.1.tensors.map (Tensor.inPart part.2.number)
  metadata : ∃ part, all[0]? = some part ∧ h.file.kv = part.1.kv ∧ h.file.version = part.1.version
  names : (h.file.tensors.map Tensor.name).Nodup

/-- Every part that opens declares more than one part. -/
def DeclaresSplit (disk : Bytes → Option Bytes) (stem : Bytes) (n : Nat) : Prop :=
  ∀ i bytes file, i < n → disk (partPath stem n i) = some bytes → ggufOpenOne bytes = some file →
    1 < splitCount file.kv

theorem data_inside {bytes : Bytes} {file : GgufFile} (opened : ggufOpenOne bytes = some file)
    {t : Tensor} (inside : t ∈ file.tensors) {pointer : Pointer} (held : t.data = some pointer) :
    pointer.pos + t.nbytes ≤ bytes.length := by
  obtain ⟨safe, only⟩ := open_one_safe opened
  by_cases supported : ggmlTypeSupported t.type = true
  · obtain ⟨other, map, data, mapped, _, room, _⟩ := (safe.tensors t inside).inside supported
    rw [held] at data
    cases data
    rw [only] at mapped
    have same : map = bytes := List.mem_singleton.mp (List.mem_of_getElem? mapped)
    rw [← same]
    exact room
  · have nothing := ((safe.tensors t inside).none (Bool.eq_false_iff.mpr supported)).1
    rw [held] at nothing
    cases nothing

/-- An entry that opens tells of every part of the set. -/
theorem set_of_entry {disk : Bytes → Option Bytes} {stem : Bytes} {n j : Nat} {h : Handle}
    {p : Process} (declares : DeclaresSplit disk stem n) (inside : j < n)
    (outcome : (mapOpen Memory.ample disk (partPath stem n j) p).1 = some h) :
    ∃ expected sum, 1 < n ∧ Limits n expected ∧ (partPath stem n 0).length < 4096 ∧
      (∃ p', p'.made.length = p.made.length + 1 ∧
        (openSplit Memory.ample disk (partPath stem n 0) n expected p').1 = some h) ∧
      ∃ all, Records disk (partPath stem n 0) n (p.made.length + 1) all ∧ all.length = n ∧
        (∀ i part, all[i]? = some part →
          IsPart disk (partPath stem n 0) n expected i part.1) ∧
        (all.map fun part => part.1.tensors.length).sum = expected ∧
        settledParts all sum = some h := by
  cases read : (disk (partPath stem n j)).bind ggufOpenOne with
  | none =>
      have fails := map_open_one_none read p
      rw [mapOpen] at outcome
      rcases one : mapOpenOne Memory.ample disk (partPath stem n j) p with ⟨_ | part, p'⟩
      · rw [one] at outcome
        cases outcome
      · rw [one] at fails
        cases fails
  | some file =>
      obtain ⟨bytes, there, opened⟩ := Option.bind_eq_some_iff.mp read
      have many := declares j bytes file inside there opened
      obtain ⟨limits, short, counted, split⟩ := part_of_map_open there opened many outcome
      refine ⟨splitTensors file.kv, ?_⟩
      have agrees := open_split_agrees disk (partPath stem n 0) n (splitTensors file.kv)
        (probed file (partPath stem n j) bytes p)
      cases parts : openParts disk (partPath stem n 0) n (splitTensors file.kv) n 0 [] 0 0 with
      | none =>
          rw [parts] at agrees
          rw [agrees] at split
          cases split
      | some result =>
          rw [parts] at agrees
          obtain ⟨all, files, records, settled⟩ := agrees
          rw [probed_made] at records
          obtain ⟨more, joined, long, each, sums⟩ := open_parts_some parts
          rw [List.nil_append, files] at joined
          refine ⟨result.2, by omega, limits, short, ⟨_, probed_made _ _ _ _, split⟩, all, records,
            ?_, ?_, ?_, settled.symm.trans split⟩
          · rw [← long, ← joined, List.length_map]
          · intro i part place
            have listed : more[i]? = some part.1 := by
              rw [← joined, List.getElem?_map, place]
              rfl
            have found := each i part.1 listed
            rw [Nat.zero_add] at found
            exact found
          · rw [← joined, List.map_map, Nat.zero_add] at sums
            exact sums

theorem entries_agree {disk : Bytes → Option Bytes} {stem : Bytes} {n j k : Nat} {h : Handle}
    {p : Process} (declares : DeclaresSplit disk stem n) (inside : j < n) (other : k < n)
    (outcome : (mapOpen Memory.ample disk (partPath stem n j) p).1 = some h) :
    (mapOpen Memory.ample disk (partPath stem n k) p).1 = some h := by
  obtain ⟨expected, sum, many, limits, short, ⟨p', made, split⟩, all, records, size, each, _⟩ :=
    set_of_entry declares inside outcome
  have part := each k _ (List.getElem?_eq_getElem (by omega : k < all.length))
  obtain ⟨path, bytes, named, there, opened⟩ := part.opens
  have here : path = partPath stem n k := (split_part_path_some named).2.2.1
  rw [here] at there
  rw [map_open_of_part there opened many other part.number part.counted part.declared limits short,
    open_split_same ((probed_made _ _ _ _).trans made.symm)]
  exact split

theorem entry_table {disk : Bytes → Option Bytes} {stem : Bytes} {n j : Nat} {h : Handle}
    {p : Process} (declares : DeclaresSplit disk stem n) (inside : j < n)
    (outcome : (mapOpen Memory.ample disk (partPath stem n j) p).1 = some h) :
    ∃ all, OneTable disk stem n h all := by
  obtain ⟨expected, sum, many, _, _, _, all, records, size, each, sums, settled⟩ :=
    set_of_entry declares inside outcome
  rw [settledParts] at settled
  split_ifs at settled with duplicate
  have merged := Option.some.inj settled
  have tensors : h.file.tensors =
      all.flatMap fun part => part.1.tensors.map (Tensor.inPart part.2.number) := by
    rw [← merged]
    exact merge_parts_tensors all sum
  have total : h.file.tensors.length = expected := by
    rw [tensors, List.length_flatMap, ← sums]
    simp only [List.length_map]
  refine ⟨all, size, ?_, ?_, ?_, tensors, ?_, ?_⟩
  · intro i part place
    have here := records i part place
    obtain ⟨bytes, there, opened, length⟩ := here.opens
    refine ⟨(split_part_path_some here.named).2.2.1, ⟨bytes, there, opened, length⟩, ?_, ?_⟩
    · rw [total]
      exact (each i part place).declared
    · intro t among pointer held
      rw [length]
      exact data_inside opened among held
  · rw [← merged, mergeParts, List.map_map]
    rfl
  · have numbers : (all.map fun part => part.2.number) =
        (List.range n).map fun i => p.made.length + 1 + i := by
      apply List.ext_getElem?
      intro i
      rw [List.getElem?_map, List.getElem?_map]
      by_cases early : i < all.length
      · rw [List.getElem?_eq_getElem early, List.getElem?_range (by omega)]
        exact congrArg some (records i _ (List.getElem?_eq_getElem early)).number
      · rw [List.getElem?_eq_none (by omega), List.getElem?_eq_none (by simp; omega)]
        rfl
    rw [numbers]
    exact List.nodup_range.map fun a b same => by omega
  · cases all with
    | nil => simp at size; omega
    | cons part all =>
        refine ⟨part, rfl, ?_, ?_⟩ <;> rw [← merged] <;> rfl
  · rw [← merged]
    exact first_duplicate_not_some.mp duplicate

/-- Opened through any of its parts, a set gives one result, and a success is the table of all
parts. However an opening ends, with whatever memory, the mappings it made are held by its result
or released once, and closing the result releases them once. -/
theorem split_sets_open_to_one_table {disk : Bytes → Option Bytes} {stem : Bytes} {n : Nat}
    (declares : DeclaresSplit disk stem n) :
    (∀ j k p, j < n → k < n → (mapOpen Memory.ample disk (partPath stem n j) p).1 =
        (mapOpen Memory.ample disk (partPath stem n k) p).1) ∧
      (∀ mem j p h, j < n → (mapOpen mem disk (partPath stem n j) p).1 = some h →
        ∃ all, OneTable disk stem n h all) ∧
        ∀ mem j p held, Owes p held →
          Settled held (mapOpen mem disk (partPath stem n j) p) ∧
            ∀ h p', mapOpen mem disk (partPath stem n j) p = (some h, p') →
              Owes (ggufClose h p') held := by
  refine ⟨?_, ?_, ?_⟩
  · intro j k p inside other
    cases left : (mapOpen Memory.ample disk (partPath stem n j) p).1 with
    | some h => exact (entries_agree declares inside other left).symm
    | none =>
        cases right : (mapOpen Memory.ample disk (partPath stem n k) p).1 with
        | none => rfl
        | some h =>
            rw [entries_agree declares other inside right] at left
            cases left
  · intro mem j p h inside outcome
    exact entry_table declares inside (map_open_granted outcome)
  · intro mem j p held owes
    have settled := map_open_settled mem disk (partPath stem n j) owes
    refine ⟨settled, ?_⟩
    intro h p' outcome
    rw [outcome] at settled
    exact Owes.close settled

theorem small_set_one_table : ∃ h all,
    (mapOpen Memory.ample smallDisk (partPath (ascii "m") 2 0) ⟨[], []⟩).1 = some h ∧
      (mapOpen Memory.ample smallDisk (partPath (ascii "m") 2 1) ⟨[], []⟩).1 = some h ∧
        OneTable smallDisk (ascii "m") 2 h all := by
  have counts : ∀ i < 2, ((smallDisk (partPath (ascii "m") 2 i)).bind ggufOpenOne).map
      (fun file => splitCount file.kv) = some 2 ∧
        (mapOpen Memory.ample smallDisk (partPath (ascii "m") 2 0) ⟨[], []⟩).1.isSome = true := by
    decide +kernel
  have declares : DeclaresSplit smallDisk (ascii "m") 2 := by
    intro i bytes file inside there opened
    have count := (counts i inside).1
    rw [there, Option.bind_some, opened] at count
    have two : splitCount file.kv = 2 := Option.some.inj count
    omega
  obtain ⟨h, opened⟩ := Option.isSome_iff_exists.mp (counts 0 (by decide)).2
  obtain ⟨same, table, _⟩ := split_sets_open_to_one_table declares
  obtain ⟨all, one⟩ := table Memory.ample 0 ⟨[], []⟩ h (by decide) opened
  exact ⟨h, all, opened, (same 1 0 ⟨[], []⟩ (by decide) (by decide)).trans opened, one⟩

end GridcoreRunner.Gguf
