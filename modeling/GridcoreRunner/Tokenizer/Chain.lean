import GridcoreRunner.GreedyMerge
import GridcoreRunner.Tokenizer.Merge

/-!
# The chain of live symbols

The live symbols stand on a chain of increasing indices, and their spans are the
list that is merged greedily: a merge of two symbols glues two spans, and a rescan
that picks the next pair of the chain each time carries the merging out.
-/

namespace GridcoreRunner.Tok

set_option autoImplicit false

open GreedyMerge

/-- The links of the symbols `xs`, the first of them after `prev`. -/
def Linked (sym : Syms) : Option Nat → List Nat → Prop
  | _, [] => True
  | prev, i :: rest =>
      (sym i).prev = prev ∧ (sym i).next = rest.head? ∧ Linked sym (some i) rest

/-- The live symbols, in order. -/
structure Chain (sym : Syms) (xs : List Nat) : Prop where
  links : Linked sym none xs
  sorted : xs.Pairwise (· < ·)
  first : xs.head? = some 0

/-- The span of two neighbours together. -/
def glue (l r : Span) : Span := (l.1, l.2 + r.2)

theorem linked_next {sym : Syms} {prev : Option Nat} {front rest : List Nat} {i : Nat}
    (links : Linked sym prev (front ++ i :: rest)) : (sym i).next = rest.head? := by
  induction front generalizing prev with
  | nil => exact links.2.1
  | cons a front ih => exact ih links.2.2

theorem linked_prev {sym : Syms} {prev : Option Nat} {front rest : List Nat} {i : Nat}
    (links : Linked sym prev (front ++ i :: rest)) :
    (sym i).prev = (front.getLast?).or prev := by
  induction front generalizing prev with
  | nil => exact links.1
  | cons a front ih =>
      rw [ih links.2.2]
      cases front with
      | nil => rfl
      | cons b front => simp [List.getLast?_eq_getLast_of_ne_nil]

theorem linked_congr {sym sym' : Syms} {prev : Option Nat} {xs : List Nat}
    (same : ∀ i ∈ xs, (sym' i).prev = (sym i).prev ∧ (sym' i).next = (sym i).next)
    (links : Linked sym prev xs) : Linked sym' prev xs := by
  induction xs generalizing prev with
  | nil => trivial
  | cons i rest ih =>
      have here := same i (by simp)
      refine ⟨by rw [here.1, links.1], by rw [here.2, links.2.1], ?_⟩
      exact ih (fun k inside => same k (List.mem_cons_of_mem _ inside)) links.2.2

theorem walk_pairs {β : Type} (visit : β → Nat → Nat → β) {sym : Syms} {prev : Option Nat}
    {i : Nat} {rest : List Nat} (links : Linked sym prev (i :: rest)) {rounds : Nat}
    (enough : rest.length ≤ rounds) (acc : β) :
    walk visit sym rounds i acc =
      (pairs (i :: rest)).foldl (fun acc p => visit acc p.1 p.2) acc := by
  induction rest generalizing i prev rounds acc with
  | nil =>
      cases rounds with
      | zero => simp [walk]
      | succ rounds =>
          have last : (sym i).next = none := links.2.1
          simp [walk, last]
  | cons j rest ih =>
      cases rounds with
      | zero => simp at enough
      | succ rounds =>
          have next : (sym i).next = some j := links.2.1
          have shorter : rest.length ≤ rounds := by
            simpa using enough
          simp only [walk, next, pairs_cons_cons, List.foldl_cons]
          exact ih links.2.2 shorter _

theorem pieces_chain {sym : Syms} {prev : Option Nat} {xs : List Nat}
    (links : Linked sym prev xs) {rounds : Nat} (enough : xs.length ≤ rounds) :
    pieces sym rounds xs.head? = xs.map fun i => (sym i).span := by
  induction xs generalizing prev rounds with
  | nil => cases rounds <;> simp [pieces]
  | cons i rest ih =>
      cases rounds with
      | zero => simp at enough
      | succ rounds =>
          have next : (sym i).next = rest.head? := links.2.1
          have shorter : rest.length ≤ rounds := by simpa using enough
          simp only [List.head?_cons, pieces, next, List.map_cons]
          rw [ih links.2.2 shorter]

theorem join_at {sym : Syms} {l j : Nat} (next : (sym l).next = some j) :
    join sym l l = { sym l with len := (sym l).len + (sym j).len, next := (sym j).next } := by
  simp [join, next]

theorem join_after {sym : Syms} {l j k : Nat} (next : (sym l).next = some j)
    (link : (sym j).next = some k) (other : k ≠ l) :
    join sym l k = { sym k with prev := some l } := by
  simp [join, next, link, other]

theorem join_other {sym : Syms} {l j k : Nat} (next : (sym l).next = some j) (other : k ≠ l)
    (unlinked : (sym j).next ≠ some k) : join sym l k = sym k := by
  simp [join, next, other, unlinked]

theorem join_span_other {sym : Syms} {l k : Nat} (other : k ≠ l) :
    (join sym l k).span = (sym k).span := by
  unfold join
  split
  · rfl
  · rw [if_neg other]
    split_ifs
    · rfl
    · rfl

theorem join_start (sym : Syms) (l k : Nat) : (join sym l k).start = (sym k).start := by
  unfold join
  split
  · rfl
  · split_ifs with here
    · rw [here]
    · rfl
    · rfl

/-- A merge keeps the links of the symbols in front of it. -/
theorem linked_front {sym sym' : Syms} {prev : Option Nat} {front tail tail' : List Nat}
    (links : Linked sym prev (front ++ tail)) (heads : tail'.head? = tail.head?)
    (same : ∀ i ∈ front, sym' i = sym i)
    (after : ∀ before, Linked sym before tail → Linked sym' before tail') :
    Linked sym' prev (front ++ tail') := by
  induction front generalizing prev with
  | nil => exact after prev links
  | cons a front ih =>
      have here := same a (by simp)
      have next := links.2.1
      refine ⟨by rw [here, links.1], ?_, ?_⟩
      · rw [here, next]
        cases front with
        | nil => simpa using heads.symm
        | cons b front => rfl
      · exact ih links.2.2 fun i inside => same i (List.mem_cons_of_mem _ inside)

theorem join_chain {sym : Syms} {front back : List Nat} {l j : Nat}
    (chain : Chain sym (front ++ l :: j :: back)) : Chain (join sym l) (front ++ l :: back) := by
  have next : (sym l).next = some j := linked_next chain.links
  have link : (sym j).next = back.head? := by
    have shifted : Linked sym none ((front ++ [l]) ++ j :: back) := by simpa using chain.links
    exact linked_next shifted
  have sorted := chain.sorted
  simp only [List.pairwise_append, List.pairwise_cons, List.mem_cons] at sorted
  rcases sorted with ⟨front_sorted, ⟨l_below, j_below, back_sorted⟩, apart⟩
  constructor
  · apply @linked_front _ _ _ _ (l :: j :: back) _ chain.links (by simp)
    · intro i inside
      have below := apart i inside l (Or.inl rfl)
      apply join_other next (by omega)
      rw [link]
      intro head
      have in_back := List.mem_of_mem_head? (Option.mem_def.mpr head)
      have above := l_below i (Or.inr in_back)
      omega
    · intro before links
      have at_l := join_at next
      refine ⟨?_, ?_, ?_⟩
      · rw [at_l]
        exact links.1
      · rw [at_l]
        exact link
      · cases back with
        | nil => trivial
        | cons k back =>
            have k_above := l_below k (by simp)
            have at_k := join_after next (by simpa using link) (show k ≠ l by omega)
            have old := links.2.2.2.2
            refine ⟨by rw [at_k], by rw [at_k]; exact old.2.1, ?_⟩
            apply linked_congr ?_ old.2.2
            intro i inside
            have i_above := l_below i (by simp [inside])
            have k_below : k < i := (List.pairwise_cons.mp back_sorted).1 i inside
            have untouched : join sym l i = sym i := by
              apply join_other next (by omega)
              rw [link]
              intro head
              cases head
              omega
            rw [untouched]
            exact ⟨rfl, rfl⟩
  · rw [List.pairwise_append, List.pairwise_cons]
    refine ⟨front_sorted, ⟨fun a inside => l_below a (Or.inr inside), back_sorted⟩, ?_⟩
    intro a inside b in_tail
    rcases List.mem_cons.mp in_tail with here | later
    · exact apart a inside b (Or.inl here)
    · exact apart a inside b (Or.inr (Or.inr later))
  · have first := chain.first
    cases front with
    | nil => simpa using first
    | cons a front => simpa using first

/-- What a merge does to the spans of the chain. -/
theorem join_spans {sym : Syms} {front back : List Nat} {l j : Nat}
    (chain : Chain sym (front ++ l :: j :: back)) :
    (front ++ l :: back).map (fun i => (join sym l i).span) =
      front.map (fun i => (sym i).span) ++
        glue (sym l).span (sym j).span :: back.map fun i => (sym i).span := by
  have next : (sym l).next = some j := linked_next chain.links
  have sorted := chain.sorted
  simp only [List.pairwise_append, List.pairwise_cons, List.mem_cons] at sorted
  rcases sorted with ⟨_, ⟨l_below, _, _⟩, apart⟩
  have fronts : front.map (fun i => (join sym l i).span) = front.map fun i => (sym i).span := by
    apply List.map_congr_left
    intro i inside
    have below := apart i inside l (Or.inl rfl)
    exact join_span_other (by omega)
  have backs : back.map (fun i => (join sym l i).span) = back.map fun i => (sym i).span := by
    apply List.map_congr_left
    intro i inside
    have above := l_below i (Or.inr inside)
    exact join_span_other (by omega)
  rw [List.map_append, List.map_cons, fronts, backs, join_at next]
  rfl

/-! ## The rescan -/

variable {key : Span → Span → Option Real32}

/-- The key of two symbols. -/
def keyAt (key : Span → Span → Option Real32) (sym : Syms) (a b : Nat) : Option Real32 :=
  key (sym a).span (sym b).span

/-- The scan finds the next pair of a chain. -/
def Picks (key : Span → Span → Option Real32) (pick : Syms → Option Nat) (n : Nat) : Prop :=
  ∀ sym xs, Chain sym xs → xs.length ≤ n →
    (pick sym = none ∧ Stuck (keyAt key sym) xs) ∨
    ∃ front l r back k, xs = front ++ l :: r :: back ∧ pick sym = some l ∧
      Best (keyAt key sym) front l r back k

theorem merges_at {sym : Syms} {front back : List Nat} {l r : Nat} {k : Real32} {out : List Span}
    (chain : Chain sym (front ++ l :: r :: back)) (best : Best (keyAt key sym) front l r back k)
    (rest : Merges key glue ((front ++ l :: back).map fun i => (join sym l i).span) out) :
    Merges key glue ((front ++ l :: r :: back).map fun i => (sym i).span) out := by
  have mapped : Best key _ _ _ _ k := best_map (fun i => (sym i).span) (fun a b => rfl) best
  rw [join_spans chain] at rest
  rw [List.map_append, List.map_cons, List.map_cons]
  exact Merges.step _ _ _ _ k _ mapped rest

theorem merges_stuck {sym : Syms} {xs : List Nat} {n : Nat} (chain : Chain sym xs)
    (short : xs.length ≤ n) (stuck : Stuck (keyAt key sym) xs) :
    Merges key glue (xs.map fun i => (sym i).span) (pieces sym n (some 0)) := by
  have read := pieces_chain chain.links short
  rw [chain.first] at read
  rw [read]
  apply Merges.stuck
  exact stuck_map (fun i => (sym i).span) (fun a b => rfl) stuck

theorem rescan_merges {pick : Syms → Option Nat} {n : Nat} (picks : Picks key pick n)
    (rounds : Nat) {sym : Syms} {xs : List Nat} (chain : Chain sym xs) (short : xs.length ≤ n)
    (enough : xs.length ≤ rounds + 1) :
    Merges key glue (xs.map fun i => (sym i).span) (pieces (rescan pick rounds sym) n (some 0)) := by
  induction rounds generalizing sym xs with
  | zero =>
      have stuck : Stuck (keyAt key sym) xs := by
        cases xs with
        | nil => simp [Stuck]
        | cons a xs =>
            cases xs with
            | nil => simp [Stuck]
            | cons b xs => simp at enough
      exact merges_stuck chain short stuck
  | succ rounds ih =>
      rcases picks sym xs chain short with ⟨nothing, stuck⟩ | ⟨front, l, r, back, k, split, picked, best⟩
      · simp only [rescan, nothing]
        exact merges_stuck chain short stuck
      · subst split
        simp only [rescan, picked]
        have lengths : (front ++ l :: r :: back).length = (front ++ l :: back).length + 1 := by
          simp
          omega
        apply merges_at chain best
        apply ih (join_chain chain)
        · omega
        · omega

/-! ## The cut text -/

theorem cut_loop_pos (rounds i : Nat) (s : Bytes) (span : Span)
    (inside : span ∈ cutLoop rounds i s) : 0 < span.2 := by
  induction rounds generalizing i s with
  | zero => simp [cutLoop] at inside
  | succ rounds ih =>
      cases s with
      | nil => simp [cutLoop] at inside
      | cons c s =>
          simp only [cutLoop, List.mem_cons] at inside
          rcases inside with here | later
          · rw [here]
            have positive := u8_len_pos c
            split_ifs <;> omega
          · exact ih _ _ later

theorem linked_links (spans : List Span) (i count : Nat) (fits : i + count = spans.length) :
    Linked (linked spans) (if i = 0 then none else some (i - 1)) (List.range' i count) := by
  induction count generalizing i with
  | zero => trivial
  | succ count ih =>
      refine ⟨rfl, ?_, ?_⟩
      · cases count with
        | zero =>
            have last : ¬i + 1 < spans.length := by omega
            simp [linked, last]
        | succ count =>
            have more : i + 1 < spans.length := by omega
            simp [linked, more, List.range'_succ]
      · have later := ih (i + 1) (by omega)
        simpa using later

theorem linked_chain {spans : List Span} (some_ : spans ≠ []) :
    Chain (linked spans) (List.range spans.length) := by
  have positive : 0 < spans.length := List.length_pos_iff.mpr some_
  constructor
  · rw [List.range_eq_range']
    exact linked_links spans 0 spans.length (by omega)
  · exact List.pairwise_lt_range
  · cases count : spans.length with
    | zero => omega
    | succ n => simp [List.range_succ_eq_map]

theorem linked_spans (spans : List Span) :
    (List.range spans.length).map (fun i => (linked spans i).span) = spans := by
  apply List.ext_getElem
  · simp
  · intro i below below'
    simp only [List.length_map, List.length_range] at below
    simp [linked, Sym.span, List.getD_eq_getElem?_getD, below]

end GridcoreRunner.Tok
