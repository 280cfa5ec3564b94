import GridcoreRunner.Model.Ring

/-!
# The chunked mixer is the serial one

The chunked core reads the first taps of a call from the ring and the others from the
inputs themselves, so that the ring has only to be brought up to date once. A head's scan
touches its own part of the state and its own cells of the output, a token's norm its own
row. So the phases come apart, and each may be spread over threads as they like.
-/

namespace GridcoreRunner.Model.Mixer

set_option autoImplicit false

open Lanes

variable {F D : Type*} (m : Mixer F D)

/-! ## The convolution -/

theorem convolved_congr {past other : Nat → F} (same : ∀ k < m.histn, past k = other k)
    (b c : Nat) : m.convolved past b c = m.convolved other b c := by
  unfold convolved
  congr 1
  have taps : ∀ n ≤ m.histn, ∀ sum,
      (List.range n).foldl (fun sum k => m.fl.add sum (m.fl.mul (m.ly.conv c k) (past k))) sum =
        (List.range n).foldl (fun sum k => m.fl.add sum (m.fl.mul (m.ly.conv c k) (other k)))
          sum := by
    intro n
    induction n with
    | zero =>
        intro _ sum
        rfl
    | succ n induction =>
        intro below sum
        rw [List.range_succ, List.foldl_append, List.foldl_append, induction (by omega)]
        simp only [List.foldl_cons, List.foldl_nil]
        rw [same n (by omega)]
  exact taps m.histn (Nat.le_refl _) _

/-- One token of every channel, the ring read as it was before the call. -/
def convFrom (ring : Nat → F) (b : Nat) (mem : Buffers F) : Buffers F :=
  loop m.convDim (fun c => m.convCell ring c b) mem

theorem convToken_ringOf (ring : Nat → F) (b : Nat) (mem : Buffers F) :
    m.convToken b { mem with conv := m.ringOf ring b } =
      { m.convFrom ring b mem with conv := m.ringOf ring b } := by
  have upTo : ∀ n ≤ m.convDim,
      loop n (fun c mem =>
        { mem with
          aux := Function.update mem.aux (b * m.convDim + c)
            (m.convolved (fun k => mem.conv (k * m.convDim + c)) b c) })
          { mem with conv := m.ringOf ring b } =
        { loop n (fun c => m.convCell ring c b) mem with conv := m.ringOf ring b } := by
    intro n
    induction n with
    | zero =>
        intro _
        rfl
    | succ n induction =>
        intro below
        rw [loop_succ, loop_succ, induction (by omega)]
        have taps := m.convolved_congr
          (fun k tap => m.ringOf_tap ring (b := b) tap (Nat.lt_of_succ_le below)) b n
        simp only [convCell, taps]
  exact upTo m.convDim (Nat.le_refl _)

theorem convFrom_conv (ring : Nat → F) (b : Nat) (mem : Buffers F) :
    (m.convFrom ring b mem).conv = mem.conv := by
  apply loop_keeps Buffers.conv
  intro c _ mem
  rfl

/-- The convolutions of a call in the serial order, the ring apart. -/
theorem serial_convolutions (n : Nat) (mem : Buffers F) :
    loop n (fun b mem => m.advanceRing b (m.convToken b mem)) mem =
      { loop n (m.convFrom mem.conv) mem with conv := m.ringOf mem.conv n } := by
  induction n with
  | zero =>
      rw [loop_zero, loop_zero, ringOf_zero]
  | succ n induction =>
      rw [loop_succ, loop_succ, induction, convToken_ringOf, advanceRing_ringOf]

/-- What a channel owns of the memory. -/
def channelView (c : Nat) (mem : Buffers F) :
    ({i : Nat // i % m.convDim = c} → F) × (Nat → F) × (Nat → F) × (Nat → F) :=
  (fun i => mem.aux i, mem.z, mem.conv, mem.states)

theorem channels_apart (ring : Nat → F) :
    Independent (fun c _ => c < m.convDim) (m.convCell ring) m.channelView := by
  constructor
  · intro lane other step mem inside differ
    unfold channelView convCell
    congr 1
    funext i
    apply Function.update_of_ne
    intro same
    have owner := i.2
    rw [same, cell_column inside] at owner
    exact differ owner
  · intro lane step mem mem' inside same
    unfold channelView at same ⊢
    rw [Prod.mk.injEq] at same ⊢
    obtain ⟨cells, rest⟩ := same
    constructor
    · funext i
      unfold convCell
      by_cases here : i.1 = step * m.convDim + lane
      · simp only [here, Function.update_self]
      · simp only [Function.update_of_ne here]
        exact congrFun cells i
    · exact rest

theorem channels_whole (mem mem' : Buffers F)
    (same : ∀ c, m.channelView c mem = m.channelView c mem') : mem = mem' := by
  have parts := fun c => Prod.mk.injEq .. ▸ same c
  apply Buffers.ext
  · funext i
    exact congrFun (parts (i % m.convDim)).1 ⟨i, rfl⟩
  · exact congrArg (fun view => view.1) (parts 0).2
  · exact congrArg (fun view => view.2.1) (parts 0).2
  · exact congrArg (fun view => view.2.2) (parts 0).2

/-- The convolution in any order of the channels. -/
theorem convolutions_any_order (ring : Nat → F) {n : Nat} {trace : List (Nat × Nat)}
    (order : Interleaves m.convDim (fun _ => List.range n) trace) (mem : Buffers F) :
    run (m.convCell ring) trace mem = loop n (m.convFrom ring) mem := by
  have byToken : Interleaves m.convDim (fun _ => List.range n)
      ((List.range n).flatMap fun b => (List.range m.convDim).map fun c => (c, b)) := by
    constructor
    · intro step member
      obtain ⟨b, _, of⟩ := List.mem_flatMap.mp member
      obtain ⟨c, inside, same⟩ := List.mem_map.mp of
      rw [← same]
      exact List.mem_range.mp inside
    · intro c inside
      rw [taken_flatMap]
      have one : ∀ b : Nat, taken c ((List.range m.convDim).map fun c => (c, b)) = [b] := by
        intro b
        have lanes := taken_lanes m.convDim (fun _ => [b]) inside
        simp only [List.map_cons, List.map_nil] at lanes
        rw [← List.map_eq_flatMap] at lanes
        exact lanes
      rw [funext one, ← List.map_eq_flatMap]
      exact List.map_id' _
  have same := (m.channels_apart ring).run_eq m.channels_whole order.1 byToken.1
    (order.taken_any byToken) mem
  rw [same, run_flatMap]
  apply loop_congr
  intro b _ mem
  rw [run_map]
  rfl

/-! ## The scan -/

/-- The columns of a token's convolved inputs that a sweep reads, wherever its row starts. -/
theorem sweep_reads {aux other : Nat → F} {b b' : Nat}
    (same : ∀ x < m.convDim, aux (b * m.convDim + x) = other (b' * m.convDim + x)) {grp : Nat}
    (inside : grp < m.ng) (sp : Nat) (dA xDt : F) (states : Nat → F) :
    m.sweep b grp sp dA xDt aux states = m.sweep b' grp sp dA xDt other states := by
  have round : ∀ acc, ∀ j < m.ds, m.sweepRound b grp sp dA xDt aux acc j =
      m.sweepRound b' grp sp dA xDt other acc j := by
    intro acc j below
    have cell : grp * m.ds + j < m.ng * m.ds := cell_below inside below
    have width : m.convDim = m.inner + (m.ng * m.ds + m.ng * m.ds) := by
      unfold Geometry.convDim
      rw [Nat.mul_assoc, Nat.two_mul]
    have first := same (m.inner + (grp * m.ds + j)) (by omega)
    have second := same (m.inner + m.ng * m.ds + (grp * m.ds + j)) (by omega)
    simp only [← Nat.add_assoc] at first second
    simp only [sweepRound, first, second]
  unfold sweep
  exact List.foldl_ext _ _ _ fun acc j member => round acc j (List.mem_range.mp member)

/-- What a sweep makes of a row depends on that row only, and it changes no other. -/
theorem sweep_row (aux : Nat → F) (b grp sp : Nat) (dA xDt : F) {states other : Nat → F}
    (same : ∀ j < m.ds, states (sp + j) = other (sp + j)) :
    (m.sweep b grp sp dA xDt aux states).1 = (m.sweep b grp sp dA xDt aux other).1 ∧
      (∀ j < m.ds, (m.sweep b grp sp dA xDt aux states).2 (sp + j) =
        (m.sweep b grp sp dA xDt aux other).2 (sp + j)) ∧
      ∀ i, ¬ (sp ≤ i ∧ i < sp + m.ds) → (m.sweep b grp sp dA xDt aux states).2 i = states i := by
  have upTo : ∀ n ≤ m.ds,
      let after := fun start : Nat → F =>
        (List.range n).foldl (m.sweepRound b grp sp dA xDt aux) (m.fl.zero, start)
      (after states).1 = (after other).1 ∧
        (∀ j < m.ds, (after states).2 (sp + j) = (after other).2 (sp + j)) ∧
        ∀ i, ¬ (sp ≤ i ∧ i < sp + m.ds) → (after states).2 i = states i := by
    intro n
    induction n with
    | zero =>
        intro _
        exact ⟨rfl, same, fun i _ => rfl⟩
    | succ n induction =>
        intro below
        obtain ⟨total, row, rest⟩ := induction (by omega)
        have here := row n (by omega)
        simp only [List.range_succ, List.foldl_append, List.foldl_cons, List.foldl_nil]
        unfold sweepRound at total here row rest ⊢
        constructor
        · simp only [total, here]
        constructor
        · intro j inside
          by_cases now : j = n
          · simp only [now, Function.update_self, here]
          · have apart : sp + j ≠ sp + n := by omega
            simp only [Function.update_of_ne apart]
            exact row j inside
        · intro i outside
          have apart : i ≠ sp + n := by omega
          simp only [Function.update_of_ne apart]
          exact rest i outside
  exact upTo m.ds (Nat.le_refl _)

/-- A head's scan of one token reads that token's inputs only. -/
theorem scanRow_reads {b h p : Nat} (head : h < m.nh) (row : p < m.hd) {mem : Buffers F}
    {aux : Nat → F}
    (same : ∀ x < m.convDim, mem.aux (b * m.convDim + x) = aux (b * m.convDim + x))
    (conv : Nat → F) :
    m.scanRow b h p { mem with aux := aux, conv := conv } =
      { m.scanRow b h p mem with aux := aux, conv := conv } := by
  have cell : h * m.hd + p < m.inner := by
    rw [← m.heads_fill]
    exact cell_below head row
  have inside : h * m.hd + p < m.convDim := by
    unfold Geometry.convDim
    omega
  have input := same (h * m.hd + p) inside
  rw [← Nat.add_assoc] at input
  unfold scanRow
  simp only [← input, m.sweep_reads same (m.head_group head)]

/-- The rows of the state that a head's scan leaves alone. -/
theorem scanRow_frame (b h p : Nat) (mem : Buffers F) {i : Nat}
    (outside : ¬ (h * m.hd * m.ds + p * m.ds ≤ i ∧ i < h * m.hd * m.ds + p * m.ds + m.ds)) :
    (m.scanRow b h p mem).states i = mem.states i :=
  (m.sweep_row _ _ _ _ _ _ fun j _ => Eq.refl (mem.states (_ + j))).2.2 i outside

/-- What a head's scan makes of its row, and what it puts out, comes from the row and the
inputs. -/
theorem scanRow_own (b h p : Nat) {mem mem' : Buffers F} (inputs : mem.aux = mem'.aux)
    (mine : ∀ j < m.ds, mem.states (h * m.hd * m.ds + p * m.ds + j) =
      mem'.states (h * m.hd * m.ds + p * m.ds + j)) :
    (∀ j < m.ds, (m.scanRow b h p mem).states (h * m.hd * m.ds + p * m.ds + j) =
      (m.scanRow b h p mem').states (h * m.hd * m.ds + p * m.ds + j)) ∧
    ∃ output, (m.scanRow b h p mem).z =
        Function.update mem.z (b * m.inner + h * m.hd + p) output ∧
      (m.scanRow b h p mem').z =
        Function.update mem'.z (b * m.inner + h * m.hd + p) output := by
  unfold scanRow
  simp only [← inputs]
  constructor
  · exact (m.sweep_row _ _ _ _ _ _ mine).2.1
  · rw [(m.sweep_row _ _ _ _ _ _ mine).1]
    exact ⟨_, rfl, rfl⟩

/-- What a head owns of the memory: its part of the state, and its cells of every output. The
rest is what it reads. -/
def headView (h : Nat) (mem : Buffers F) :
    ({i : Nat // i / (m.hd * m.ds) = h} → F) × ({i : Nat // i % m.inner / m.hd = h} → F) ×
      (Nat → F) × (Nat → F) :=
  (fun i => mem.states i, fun i => mem.z i, mem.aux, mem.conv)

theorem state_owner {h p j : Nat} (row : p < m.hd) (cell : j < m.ds) :
    (h * m.hd * m.ds + p * m.ds + j) / (m.hd * m.ds) = h := by
  rw [Nat.mul_assoc, Nat.add_assoc]
  exact cell_row (cell_below row cell)

theorem output_owner {b h p : Nat} (head : h < m.nh) (row : p < m.hd) :
    (b * m.inner + h * m.hd + p) % m.inner / m.hd = h := by
  have cell : h * m.hd + p < m.inner := by
    rw [← m.heads_fill]
    exact cell_below head row
  rw [Nat.add_assoc, cell_column cell]
  exact cell_row row

theorem heads_apart :
    Independent (fun h bp => h < m.nh ∧ bp.2 < m.hd)
      (fun h (bp : Nat × Nat) => m.scanRow bp.1 h bp.2) m.headView := by
  constructor
  · intro lane other bp mem inside differ
    obtain ⟨head, row⟩ := inside
    unfold headView
    rw [Prod.mk.injEq, Prod.mk.injEq]
    constructor
    · funext i
      apply m.scanRow_frame
      intro within
      have cell := m.state_owner (h := other) row
        (j := i - (other * m.hd * m.ds + bp.2 * m.ds)) (by omega)
      rw [Nat.add_sub_cancel' within.1, i.2] at cell
      exact differ cell.symm
    constructor
    · funext i
      apply Function.update_of_ne
      intro same
      have owner := i.2
      rw [same, m.output_owner head row] at owner
      exact differ owner
    · rfl
  · intro lane bp mem mem' inside same
    obtain ⟨head, row⟩ := inside
    unfold headView at same ⊢
    simp only [Prod.mk.injEq] at same ⊢
    obtain ⟨states, outputs, aux, conv⟩ := same
    have mine : ∀ j < m.ds, mem.states (lane * m.hd * m.ds + bp.2 * m.ds + j) =
        mem'.states (lane * m.hd * m.ds + bp.2 * m.ds + j) := by
      intro j cell
      exact congrFun states ⟨_, m.state_owner row cell⟩
    obtain ⟨cells, output, here, there⟩ := m.scanRow_own bp.1 lane bp.2 aux mine
    constructor
    · funext i
      by_cases within : lane * m.hd * m.ds + bp.2 * m.ds ≤ i.1 ∧
          i.1 < lane * m.hd * m.ds + bp.2 * m.ds + m.ds
      · have cell := cells (i - (lane * m.hd * m.ds + bp.2 * m.ds)) (by omega)
        rw [Nat.add_sub_cancel' within.1] at cell
        exact cell
      · rw [m.scanRow_frame bp.1 lane bp.2 mem within, m.scanRow_frame bp.1 lane bp.2 mem' within]
        exact congrFun states i
    constructor
    · funext i
      rw [here, there]
      by_cases now : i.1 = bp.1 * m.inner + lane * m.hd + bp.2
      · rw [now, Function.update_self, Function.update_self]
      · rw [Function.update_of_ne now, Function.update_of_ne now]
        exact congrFun outputs i
    · exact ⟨aux, conv⟩

theorem heads_whole (mem mem' : Buffers F) (same : ∀ h, m.headView h mem = m.headView h mem') :
    mem = mem' := by
  have parts : ∀ h, _ ∧ _ ∧ _ ∧ _ := fun h => by
    have equal := same h
    unfold headView at equal
    simp only [Prod.mk.injEq] at equal
    exact equal
  apply Buffers.ext
  · exact (parts 0).2.2.1
  · funext i
    exact congrFun (parts (i % m.inner / m.hd)).2.1 ⟨i, rfl⟩
  · exact (parts 0).2.2.2
  · funext i
    exact congrFun (parts (i / (m.hd * m.ds))).1 ⟨i, rfl⟩

theorem mem_scanProgram {t0 t1 : Nat} {bp : Nat × Nat} (member : bp ∈ m.scanProgram t0 t1) :
    bp.2 < m.hd := by
  obtain ⟨b, _, of⟩ := List.mem_flatMap.mp member
  obtain ⟨p, row, same⟩ := List.mem_map.mp of
  rw [← same]
  exact List.mem_range.mp row

/-- Consecutive chunks of the tokens. -/
theorem scanProgram_chunks (n chunk k : Nat) :
    (List.range k).flatMap (fun i => m.scanProgram (i * chunk) (min (i * chunk + chunk) n)) =
      m.scanProgram 0 (min (k * chunk) n) := by
  induction k with
  | zero =>
      rw [Nat.zero_mul, Nat.zero_min]
      rfl
  | succ k induction =>
      rw [List.range_succ, List.flatMap_append, induction, List.flatMap_singleton, Nat.succ_mul]
      unfold scanProgram
      rw [← List.flatMap_append]
      congr 1
      by_cases inside : k * chunk ≤ n
      · have joined := @List.range'_append 0 (k * chunk)
          (min (k * chunk + chunk) n - k * chunk) 1
        rw [Nat.one_mul, Nat.zero_add] at joined
        rw [Nat.min_eq_left inside, Nat.sub_zero, joined]
        congr 1
        omega
      · have none' : min (k * chunk + chunk) n - k * chunk = 0 := by omega
        have all : min (k * chunk + chunk) n = min (k * chunk) n := by omega
        rw [none', all, List.range'_zero, List.append_nil]

theorem chunks_cover {n chunk : Nat} (positive : 0 < chunk) :
    n ≤ (n + chunk - 1) / chunk * chunk := by
  have split := Nat.div_add_mod (n + chunk - 1) chunk
  have rest := Nat.mod_lt (n + chunk - 1) positive
  rw [Nat.mul_comm] at split
  omega

/-- The scan in any chunks, each in any order of the heads. -/
theorem scans_any_order {n chunk : Nat} (positive : 0 < chunk)
    {scan : Nat → List (Nat × (Nat × Nat))}
    (order : ∀ i, Interleaves m.nh
      (fun _ => m.scanProgram (i * chunk) (min (i * chunk + chunk) n)) (scan i))
    (mem : Buffers F) :
    loop ((n + chunk - 1) / chunk)
        (fun i => run (fun h bp => m.scanRow bp.1 h bp.2) (scan i)) mem =
      loop n m.scanToken mem := by
  have covered : min ((n + chunk - 1) / chunk * chunk) n = n :=
    Nat.min_eq_right (chunks_cover positive)
  have chunks : Interleaves m.nh (fun _ => m.scanProgram 0 n)
      ((List.range ((n + chunk - 1) / chunk)).flatMap scan) := by
    constructor
    · intro step member
      obtain ⟨i, _, of⟩ := List.mem_flatMap.mp member
      exact (order i).1 step of
    · intro h inside
      rw [taken_flatMap, funext fun i => (order i).2 h inside, scanProgram_chunks, covered]
  have tokens : Interleaves m.nh (fun _ => m.scanProgram 0 n)
      ((List.range n).flatMap fun b => (List.range m.nh).flatMap fun h =>
        ((List.range m.hd).map fun p => (b, p)).map fun bp => (h, bp)) := by
    constructor
    · intro step member
      obtain ⟨b, _, of⟩ := List.mem_flatMap.mp member
      obtain ⟨h, inside, of⟩ := List.mem_flatMap.mp of
      obtain ⟨bp, _, same⟩ := List.mem_map.mp of
      rw [← same]
      exact List.mem_range.mp inside
    · intro h inside
      rw [taken_flatMap, funext fun b => taken_lanes m.nh
        (fun _ => (List.range m.hd).map fun p => (b, p)) inside]
      unfold scanProgram
      rw [Nat.sub_zero, ← List.range_eq_range']
  have fine : ∀ {trace : List (Nat × (Nat × Nat))},
      Interleaves m.nh (fun _ => m.scanProgram 0 n) trace →
      ∀ step ∈ trace, step.1 < m.nh ∧ step.2.2 < m.hd := by
    intro trace order step member
    exact ⟨order.1 step member, m.mem_scanProgram (order.mem_program member)⟩
  have same := m.heads_apart.run_eq m.heads_whole (fine chunks) (fine tokens)
    (chunks.taken_any tokens) mem
  rw [run_flatMap, run_flatMap] at same
  rw [same]
  apply loop_congr
  intro b _ mem
  rw [run_flatMap]
  apply loop_congr
  intro h _ mem
  rw [List.map_map, run_map]
  rfl

/-! ## The norm -/

/-- The cells of one token's output. -/
def InRow (b i : Nat) : Prop := b * m.inner ≤ i ∧ i < b * m.inner + m.inner

theorem gate_within (b : Nat) : Within (m.InRow b) (m.gate b) := by
  apply Within.loop
  intro i inside
  have here : m.InRow b (b * m.inner + i) := ⟨Nat.le_add_right _ _, Nat.add_lt_add_left inside _⟩
  apply Within.update here
  intro table other agree
  rw [agree _ here]

theorem groupNorm_within (b : Nat) {grp : Nat} (inside : grp < m.ng) :
    Within (m.InRow b) (m.groupNorm b grp) := by
  have cells : ∀ i < m.perG, m.InRow b (b * m.inner + grp * m.perG + i) := by
    intro i below
    have cell := cell_below inside below
    rw [m.groups_fill] at cell
    unfold InRow
    omega
  have scaled : ∀ scale, Within (m.InRow b) fun y => loop m.perG (fun i y =>
      Function.update y (b * m.inner + grp * m.perG + i)
        (m.fl.mul (m.fl.mul (y (b * m.inner + grp * m.perG + i)) scale)
          (m.ly.normW (grp * m.perG + i)))) y := by
    intro scale
    apply Within.loop
    intro i below
    apply Within.update (cells i below)
    intro table other agree
    rw [agree _ (cells i below)]
  have squares : ∀ {table other : Nat → F}, (∀ i, m.InRow b i → table i = other i) →
      (List.range m.perG).foldl (fun ss i => m.fl.wideAdd ss (m.fl.wide
        (m.fl.mul (table (b * m.inner + grp * m.perG + i))
          (table (b * m.inner + grp * m.perG + i))))) m.fl.wideZero =
      (List.range m.perG).foldl (fun ss i => m.fl.wideAdd ss (m.fl.wide
        (m.fl.mul (other (b * m.inner + grp * m.perG + i))
          (other (b * m.inner + grp * m.perG + i))))) m.fl.wideZero := by
    intro table other agree
    apply List.foldl_ext
    intro ss i member
    rw [agree _ (cells i (List.mem_range.mp member))]
  constructor
  · intro table i outside
    exact (scaled _).frame table i outside
  · intro table other agree i mine
    unfold groupNorm
    simp only [squares agree]
    exact (scaled _).own table other agree i mine

theorem gateNorm_within (b : Nat) :
    Within (m.InRow b) fun y => loop m.ng (m.groupNorm b) (m.gate b y) :=
  (m.gate_within b).comp (Within.loop fun _ inside => m.groupNorm_within b inside)

/-- What a token owns of the outputs. -/
def tokenView (b : Nat) (mem : Buffers F) :
    ({i : Nat // i / m.inner = b} → F) × (Nat → F) × (Nat → F) × (Nat → F) :=
  (fun i => mem.z i, mem.aux, mem.conv, mem.states)

theorem inRow_iff {b i : Nat} : m.InRow b i ↔ i / m.inner = b := by
  unfold InRow
  rw [Nat.div_eq_iff m.innerPos, Nat.mul_comm]
  have pos := m.innerPos
  omega

theorem tokens_apart :
    Independent (fun _ _ => True) (fun b (_ : Unit) => m.gateNorm b) m.tokenView := by
  constructor
  · intro lane other step mem _ differ
    unfold tokenView gateNorm
    congr 1
    funext i
    apply (m.gateNorm_within other).frame
    intro row
    rw [m.inRow_iff, i.2] at row
    exact differ row.symm
  · intro lane step mem mem' _ same
    unfold tokenView at same ⊢
    rw [Prod.mk.injEq] at same ⊢
    obtain ⟨outputs, rest⟩ := same
    constructor
    · funext i
      apply (m.gateNorm_within lane).own
      · intro j row
        exact congrFun outputs ⟨j, m.inRow_iff.mp row⟩
      · exact m.inRow_iff.mpr i.2
    · exact rest

theorem tokens_whole (mem mem' : Buffers F) (same : ∀ b, m.tokenView b mem = m.tokenView b mem') :
    mem = mem' := by
  have parts := fun b => Prod.mk.injEq .. ▸ same b
  apply Buffers.ext
  · exact congrArg (fun view => view.1) (parts 0).2
  · funext i
    exact congrFun (parts (i / m.inner)).1 ⟨i, rfl⟩
  · exact congrArg (fun view => view.2.1) (parts 0).2
  · exact congrArg (fun view => view.2.2) (parts 0).2

/-- The norm in any order of the tokens. -/
theorem norms_any_order {n : Nat} {trace : List (Nat × Unit)}
    (order : Interleaves n (fun _ => [()]) trace) (mem : Buffers F) :
    run (fun b _ => m.gateNorm b) trace mem = loop n m.gateNorm mem := by
  have inOrder := interleaves_lanes n fun _ => [()]
  have same := m.tokens_apart.run_eq m.tokens_whole (fun _ _ => trivial) (fun _ _ => trivial)
    (order.taken_any inOrder) mem
  rw [same, run_flatMap]
  rfl

/-! ## The phases come apart -/

theorem convToken_frame (b : Nat) (mem : Buffers F) (z states : Nat → F) :
    m.convToken b { mem with z := z, states := states } =
      { m.convToken b mem with z := z, states := states } := by
  symm
  apply loop_commutes (s := fun mem : Buffers F => { mem with z := z, states := states })
  intro c _ mem
  rfl

theorem advanceRing_frame (b : Nat) (mem : Buffers F) (z states : Nat → F) :
    m.advanceRing b { mem with z := z, states := states } =
      { m.advanceRing b mem with z := z, states := states } := by
  unfold advanceRing
  by_cases none' : m.histn = 0
  · rw [if_pos none', if_pos none']
  · rw [if_neg none', if_neg none']

/-- The convolution of a token writes that token's row of inputs. -/
theorem convToken_row {b i : Nat} (mem : Buffers F)
    (outside : ¬ (b * m.convDim ≤ i ∧ i < b * m.convDim + m.convDim)) :
    (m.convToken b mem).aux i = mem.aux i := by
  apply loop_keeps (fun mem : Buffers F => mem.aux i)
  intro c inside mem
  apply Function.update_of_ne
  omega

theorem advanceRing_aux (b : Nat) (mem : Buffers F) : (m.advanceRing b mem).aux = mem.aux := by
  unfold advanceRing
  by_cases none' : m.histn = 0
  · rw [if_pos none']
  · rw [if_neg none']

/-- The inputs of one token: convolved, and shifted into the ring. -/
def takeIn (b : Nat) (mem : Buffers F) : Buffers F := m.advanceRing b (m.convToken b mem)

theorem takeIn_frame (b : Nat) (mem : Buffers F) (z states : Nat → F) :
    m.takeIn b { mem with z := z, states := states } =
      { m.takeIn b mem with z := z, states := states } := by
  unfold takeIn
  rw [convToken_frame, advanceRing_frame]

theorem takeIn_row {b other x : Nat} (differ : b ≠ other) (below : x < m.convDim)
    (mem : Buffers F) :
    (m.takeIn b mem).aux (other * m.convDim + x) = mem.aux (other * m.convDim + x) := by
  unfold takeIn
  rw [advanceRing_aux]
  apply convToken_row
  intro within
  have row := cell_row (r := other) below
  have same : (other * m.convDim + x) / m.convDim = b := by
    rw [Nat.div_eq_iff m.convDim_pos, Nat.mul_comm]
    have pos := m.convDim_pos
    rw [Nat.mul_comm] at within
    omega
  omega

theorem scanToken_reads {b : Nat} {mem : Buffers F} {aux : Nat → F}
    (same : ∀ x < m.convDim, mem.aux (b * m.convDim + x) = aux (b * m.convDim + x))
    (conv : Nat → F) :
    m.scanToken b { mem with aux := aux, conv := conv } =
      { m.scanToken b mem with aux := aux, conv := conv } := by
  have rows : ∀ h < m.nh, ∀ n ≤ m.hd, ∀ mem : Buffers F,
      (∀ x < m.convDim, mem.aux (b * m.convDim + x) = aux (b * m.convDim + x)) →
      loop n (fun p => m.scanRow b h p) { mem with aux := aux, conv := conv } =
          { loop n (fun p => m.scanRow b h p) mem with aux := aux, conv := conv } ∧
        (loop n (fun p => m.scanRow b h p) mem).aux = mem.aux := by
    intro h head n
    induction n with
    | zero =>
        intro _ mem _
        exact ⟨rfl, rfl⟩
    | succ n induction =>
        intro below mem same
        obtain ⟨before, kept⟩ := induction (by omega) mem same
        rw [loop_succ, loop_succ, before]
        constructor
        · apply m.scanRow_reads head (by omega)
          rw [kept]
          exact same
        · exact kept
  have heads : ∀ n ≤ m.nh,
      loop n (fun h => loop m.hd fun p => m.scanRow b h p) { mem with aux := aux, conv := conv } =
          { loop n (fun h => loop m.hd fun p => m.scanRow b h p) mem with
            aux := aux, conv := conv } ∧
        (loop n (fun h => loop m.hd fun p => m.scanRow b h p) mem).aux = mem.aux := by
    intro n
    induction n with
    | zero =>
        intro _
        exact ⟨rfl, rfl⟩
    | succ n induction =>
        intro below
        obtain ⟨before, kept⟩ := induction (by omega)
        have agree : ∀ x < m.convDim,
            (loop n (fun h => loop m.hd fun p => m.scanRow b h p) mem).aux (b * m.convDim + x) =
              aux (b * m.convDim + x) := by
          rw [kept]
          exact same
        obtain ⟨now, still⟩ := rows n (by omega) m.hd (Nat.le_refl _) _ agree
        rw [loop_succ, loop_succ, before]
        exact ⟨now, still.trans kept⟩
  exact (heads m.nh (Nat.le_refl _)).1

theorem scanToken_keeps (b : Nat) (mem : Buffers F) :
    (m.scanToken b mem).aux = mem.aux ∧ (m.scanToken b mem).conv = mem.conv := by
  have kept : ((m.scanToken b mem).aux, (m.scanToken b mem).conv) = (mem.aux, mem.conv) := by
    apply loop_keeps fun mem : Buffers F => (mem.aux, mem.conv)
    intro h _ mem
    apply loop_keeps fun mem : Buffers F => (mem.aux, mem.conv)
    intro p _ mem
    rfl
  rw [Prod.mk.injEq] at kept
  exact kept

/-- Taking in a later token passes an earlier token's scan. -/
theorem takeIn_scanToken {b later : Nat} (after : b < later) (mem : Buffers F) :
    m.takeIn later (m.scanToken b mem) = m.scanToken b (m.takeIn later mem) := by
  have kept := m.scanToken_keeps b mem
  have split : m.scanToken b mem =
      { mem with z := (m.scanToken b mem).z, states := (m.scanToken b mem).states } := by
    apply Buffers.ext
    · exact kept.1
    · rfl
    · exact kept.2
    · rfl
  have taken' : m.takeIn later mem =
      { mem with aux := (m.takeIn later mem).aux, conv := (m.takeIn later mem).conv } := by
    have frame := m.takeIn_frame later mem mem.z mem.states
    apply Buffers.ext
    · rfl
    · exact congrArg Buffers.z frame
    · rfl
    · exact congrArg Buffers.states frame
  have inputs : ∀ x < m.convDim, mem.aux (b * m.convDim + x) =
      (m.takeIn later mem).aux (b * m.convDim + x) := fun x below =>
    (m.takeIn_row (Nat.ne_of_gt after) below mem).symm
  have scanned := m.scanToken_reads inputs (m.takeIn later mem).conv
  rw [← taken'] at scanned
  rw [scanned]
  conv_lhs => rw [split]
  exact m.takeIn_frame later mem _ _

/-- The gate and the norm of a token pass the scan of another. -/
theorem scanToken_gateNorm {b later : Nat} (differ : later ≠ b) (mem : Buffers F) :
    m.scanToken later (m.gateNorm b mem) = m.gateNorm b (m.scanToken later mem) := by
  have row : ∀ h < m.nh, ∀ p < m.hd, ∀ mem : Buffers F,
      m.gateNorm b (m.scanRow later h p mem) = m.scanRow later h p (m.gateNorm b mem) := by
    intro h head p row mem
    have outside : ¬ m.InRow b (later * m.inner + h * m.hd + p) := by
      have cell : h * m.hd + p < m.inner := by
        rw [← m.heads_fill]
        exact cell_below head row
      rw [m.inRow_iff, Nat.add_assoc, cell_row cell]
      exact differ
    have passed := (m.gateNorm_within b).update_comm outside
    unfold gateNorm scanRow
    simp only [passed]
  symm
  apply loop_commutes
  intro h head mem
  apply loop_commutes
  intro p below mem
  exact row h head p below mem

/-- Taking in a token leaves the outputs alone. -/
theorem takeIn_gateNorm (b later : Nat) (mem : Buffers F) :
    m.takeIn later (m.gateNorm b mem) = m.gateNorm b (m.takeIn later mem) := by
  have frame := m.takeIn_frame later mem (loop m.ng (m.groupNorm b) (m.gate b mem.z)) mem.states
  have still := m.takeIn_frame later mem mem.z mem.states
  have outputs : (m.takeIn later mem).z = mem.z := by
    have z := congrArg Buffers.z still
    exact z
  have states : (m.takeIn later mem).states = mem.states := by
    have states := congrArg Buffers.states still
    exact states
  unfold gateNorm
  rw [frame]
  apply Buffers.ext
  · rfl
  · simp only [outputs]
  · rfl
  · exact states.symm

/-- The serial core, phase by phase. -/
theorem serial_phases (n : Nat) (mem : Buffers F) :
    m.mamba2SsdCoreSerial n mem =
      loop n m.gateNorm (loop n m.scanToken (loop n m.takeIn mem)) := by
  have norms := loop_fission (e := fun b mem => m.scanToken b (m.takeIn b mem))
    (l := m.gateNorm) n (fun b later after _ mem => by
      simp only [m.takeIn_gateNorm, m.scanToken_gateNorm (Nat.ne_of_gt after)]) mem
  have scans := loop_fission (e := m.takeIn) (l := m.scanToken) n
    (fun b later after _ mem => m.takeIn_scanToken after mem) mem
  unfold mamba2SsdCoreSerial
  rw [← scans, ← norms]
  rfl

/-- The pool with one thread: one lane after the other. -/
def inTurn (n chunk : Nat) : Schedule where
  conv := (List.range m.convDim).flatMap fun c => (List.range n).map fun b => (c, b)
  scan i := (List.range m.nh).flatMap fun h =>
    (m.scanProgram (i * chunk) (min (i * chunk + chunk) n)).map fun bp => (h, bp)
  norm := (List.range n).flatMap fun b => [()].map fun u => (b, u)

theorem inTurn_runs (n chunk : Nat) : (m.inTurn n chunk).Runs m n chunk :=
  ⟨interleaves_lanes m.convDim _, fun _ => interleaves_lanes m.nh _, interleaves_lanes n _⟩

/-- The chunked core leaves every buffer as the serial core leaves it, for every chunk size
and every order in which the threads get on. -/
theorem chunked_serial {s : Schedule} {n chunk : Nat} (positive : 0 < chunk)
    (order : s.Runs m n chunk) (mem : Buffers F) :
    m.mamba2SsdCoreChunked s n chunk mem = m.mamba2SsdCoreSerial n mem := by
  have kept : (loop n (m.convFrom mem.conv) mem).conv = mem.conv :=
    loop_keeps Buffers.conv (fun b _ mem' => m.convFrom_conv mem.conv b mem') mem
  have inputs : loop n m.takeIn mem = m.ringAfter n (loop n (m.convFrom mem.conv) mem) := by
    rw [ringAfter_eq, kept]
    exact m.serial_convolutions n mem
  rw [serial_phases, inputs]
  unfold mamba2SsdCoreChunked
  simp only [m.convolutions_any_order mem.conv order.conv, m.scans_any_order positive order.scan,
    m.norms_any_order order.norm]

end GridcoreRunner.Model.Mixer
