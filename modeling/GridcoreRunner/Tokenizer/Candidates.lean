import Mathlib.Data.Prod.Lex
import GridcoreRunner.Tokenizer.Chain

/-!
# The queue of candidates

Between two rounds of the queue every pair of the chain that has a key has its
candidate in the heap, and a candidate that passes `mcLive` is a pair of the chain.
So the first live candidate taken out is the pair to merge next.
-/

namespace GridcoreRunner.Tok

set_option autoImplicit false

open GreedyMerge

variable {key : Span → Span → Option Real32}

/-! ## The heap -/

/-- The order of `mc_better`. -/
def mcRank (c : Mcand) : Lex (Real32 × Nat) := toLex (c.key, c.l)

theorem mc_better_rank (a b : Mcand) : mcBetter a b = decide (mcRank a < mcRank b) := by
  simp only [mcBetter, mcRank, Prod.Lex.toLex_lt_toLex]
  by_cases same : a.key = b.key
  · simp [same]
  · simp [same]

def Mheap.Holds (h : Mheap) (c : Mcand) : Prop := BinaryHeap.Holds h.e h.n c

def Mheap.Ordered (h : Mheap) : Prop := BinaryHeap.Ordered mcRank h.e h.n

theorem mh_push_holds (h : Mheap) (c x : Mcand) :
    (mhPush h c).Holds x ↔ h.Holds x ∨ x = c := by
  have sifted := @BinaryHeap.sift_up_holds Mcand mcBetter
    (fun k => if k = h.n then c else h.e k) (h.n + 1) h.n h.n (Nat.lt_succ_self _) x
  show BinaryHeap.Holds _ (h.n + 1) x ↔ _
  rw [mhPush, sifted]
  constructor
  · rintro ⟨i, below, at_i⟩
    by_cases last : i = h.n
    · right
      simpa [last] using at_i.symm
    · left
      exact ⟨i, by omega, by simpa [last] using at_i⟩
  · rintro (⟨i, below, at_i⟩ | here)
    · have other : i ≠ h.n := by omega
      exact ⟨i, by omega, by simpa [other] using at_i⟩
    · exact ⟨h.n, by omega, by simp [here]⟩

theorem mh_push_ordered {h : Mheap} (order : h.Ordered) (c : Mcand) : (mhPush h c).Ordered := by
  apply BinaryHeap.sift_up_ordered mc_better_rank _ _ _ _ (Nat.lt_succ_self _) (le_refl _)
  constructor
  · intro i positive below away
    have inside : i < h.n := Nat.lt_of_le_of_ne (Nat.le_of_lt_succ below) away
    have old := order i positive inside
    have parent : (i - 1) / 2 ≠ h.n := by omega
    simpa only [if_neg away, if_neg parent] using old
  · intro i _ positive below child
    have below' : i < h.n + 1 := below
    omega

theorem mh_pop_none {h : Mheap} (empty : mhPop h = none) (c : Mcand) : ¬h.Holds c := by
  unfold mhPop at empty
  split_ifs at empty with none_left
  rintro ⟨i, below, _⟩
  omega

/-- What `mh_pop` takes out and leaves. -/
structure Popped (h : Mheap) (c : Mcand) (h' : Mheap) : Prop where
  taken : h.Holds c
  least : ∀ x, h.Holds x → mcRank c ≤ mcRank x
  kept : ∀ x, h.Holds x → x = c ∨ h'.Holds x
  old : ∀ x, h'.Holds x → h.Holds x
  ordered : h'.Ordered
  smaller : h'.n + 1 = h.n

theorem mh_pop_some {h h' : Mheap} {c : Mcand} (order : h.Ordered)
    (popped : mhPop h = some (c, h')) : Popped h c h' := by
  unfold mhPop at popped
  split_ifs at popped with none_left
  simp only [Option.some.injEq, Prod.mk.injEq] at popped
  rcases popped with ⟨top, rest⟩
  subst top rest
  -- the array between taking the root out and sifting
  have holds_mid : ∀ x, BinaryHeap.Holds
      (BinaryHeap.siftDown mcBetter (h.n - 1) (h.n - 1)
        (fun k => if k = 0 then h.e (h.n - 1) else h.e k) 0) (h.n - 1) x ↔
      BinaryHeap.Holds (fun k => if k = 0 then h.e (h.n - 1) else h.e k) (h.n - 1) x := by
    intro x
    by_cases single : h.n - 1 = 0
    · simp [single, BinaryHeap.Holds]
    · exact BinaryHeap.sift_down_holds _ _ _ _ (by omega) x
  constructor
  · exact ⟨0, by omega, rfl⟩
  · rintro x ⟨i, below, at_i⟩
    rw [← at_i]
    exact BinaryHeap.root_least order i below
  · rintro x ⟨i, below, at_i⟩
    by_cases root : i = 0
    · left
      rw [← at_i, root]
    · right
      rw [Mheap.Holds, holds_mid]
      by_cases last : i = h.n - 1
      · exact ⟨0, by omega, by simpa [← last] using at_i⟩
      · exact ⟨i, by omega, by simpa [root] using at_i⟩
  · intro x inside
    rw [Mheap.Holds, holds_mid] at inside
    rcases inside with ⟨i, below, at_i⟩
    by_cases root : i = 0
    · exact ⟨h.n - 1, by omega, by simpa [root] using at_i⟩
    · exact ⟨i, by omega, by simpa [root] using at_i⟩
  · apply BinaryHeap.sift_down_ordered mc_better_rank _ _ _ _ (by omega)
    constructor
    · intro i positive below away
      have old := order i positive (by omega)
      have not_root : i ≠ 0 := by omega
      simpa only [if_neg away, if_neg not_root] using old
    · intro i above
      omega
  · show h.n - 1 + 1 = h.n
    omega

/-! ## The queue -/

/-- The candidate of a pair. -/
def candidate (sym : Syms) (l r : Nat) (k : Real32) : Mcand := ⟨k, l, r, (sym l).len, (sym r).len⟩

theorem push_pair_holds {sym : Syms} {l r : Nat} (next : (sym l).next = some r) (h : Mheap)
    (x : Mcand) :
    (pushPair key sym h (some l)).Holds x ↔
      h.Holds x ∨ ∃ k, keyAt key sym l r = some k ∧ x = candidate sym l r k := by
  simp only [pushPair, next]
  rcases keyed : key (sym l).span (sym r).span with _ | k
  · simp [keyAt, keyed]
  · simp only [mh_push_holds, keyAt, keyed, Option.some.injEq]
    constructor
    · rintro (old | new)
      · exact Or.inl old
      · exact Or.inr ⟨k, rfl, new⟩
    · rintro (old | ⟨k', same, new⟩)
      · exact Or.inl old
      · subst same
        exact Or.inr new

theorem push_pair_last {sym : Syms} {l : Nat} (last : (sym l).next = none) (h : Mheap) :
    pushPair key sym h (some l) = h := by
  simp [pushPair, last]

theorem push_pair_ordered {sym : Syms} {h : Mheap} (order : h.Ordered) (l : Option Nat) :
    (pushPair key sym h l).Ordered := by
  unfold pushPair
  split
  · exact order
  · split
    · exact order
    · split
      · exact order
      · exact mh_push_ordered order _

theorem push_pair_size (sym : Syms) (h : Mheap) (l : Option Nat) :
    (pushPair key sym h l).n ≤ h.n + 1 := by
  unfold pushPair
  split
  · omega
  · split
    · omega
    · split
      · omega
      · simp [mhPush]

/-- The symbols and the queue between two rounds. -/
structure Queued (key : Span → Span → Option Real32) (sym : Syms) (xs : List Nat) (h : Mheap) :
    Prop where
  chain : Chain sym xs
  dead : ∀ i, i ∉ xs → (sym i).len = 0
  alive : ∀ i ∈ xs, 0 < (sym i).len
  ordered : h.Ordered
  sound : ∀ c, h.Holds c → 0 < c.lenL ∧
    key ((sym c.l).start, c.lenL) ((sym c.r).start, c.lenR) = some c.key
  complete : ∀ p ∈ pairs xs, ∀ k, keyAt key sym p.1 p.2 = some k →
    h.Holds (candidate sym p.1 p.2 k)

theorem candidate_live {sym : Syms} {xs : List Nat} (chain : Chain sym xs) {p : Nat × Nat}
    (adjacent : p ∈ pairs xs) (k : Real32) : mcLive (candidate sym p.1 p.2 k) sym = true := by
  rcases mem_pairs adjacent with ⟨front, back, split⟩
  have links := chain.links
  rw [split] at links
  have next : (sym p.1).next = some p.2 := linked_next links
  simp [mcLive, candidate, next]

/-- A candidate that passes `mcLive` is a pair of the chain. -/
theorem live_candidate {sym : Syms} {xs : List Nat} {h : Mheap} (queued : Queued key sym xs h)
    {c : Mcand} (inside : h.Holds c) (live : mcLive c sym = true) :
    keyAt key sym c.l c.r = some c.key ∧ (sym c.l).next = some c.r ∧
      ∃ front back, xs = front ++ c.l :: c.r :: back := by
  have sound := queued.sound c inside
  simp only [mcLive, Bool.and_eq_true, decide_eq_true_eq, beq_iff_eq] at live
  rcases live with ⟨⟨next, len_l⟩, len_r⟩
  have keyed : keyAt key sym c.l c.r = some c.key := by
    rw [keyAt, Sym.span, Sym.span, len_l, len_r]
    exact sound.2
  refine ⟨keyed, next, ?_⟩
  have listed : c.l ∈ xs := by
    by_contra absent
    have zero := queued.dead c.l absent
    omega
  rcases List.append_of_mem listed with ⟨front, rest, split⟩
  have links := queued.chain.links
  rw [split] at links
  have head := linked_next links
  rw [next] at head
  cases rest with
  | nil => cases head
  | cons r back =>
      injection head with same
      subst same
      exact ⟨front, back, split⟩

theorem queued_best {sym : Syms} {front back : List Nat} {h h' : Mheap} {c : Mcand}
    (queued : Queued key sym (front ++ c.l :: c.r :: back) h) (popped : Popped h c h')
    (keyed : keyAt key sym c.l c.r = some c.key) :
    Best (keyAt key sym) front c.l c.r back c.key := by
  have bound : ∀ p ∈ pairs (front ++ c.l :: c.r :: back), ∀ k, keyAt key sym p.1 p.2 = some k →
      mcRank c ≤ toLex (k, p.1) := by
    intro p adjacent k keyed_p
    exact popped.least _ (queued.complete p adjacent k keyed_p)
  rw [pairs_append] at bound
  constructor
  · exact keyed
  · intro p inside k keyed_p
    have lower := bound p (by simp [inside]) k keyed_p
    rw [mcRank, Prod.Lex.toLex_le_toLex] at lower
    rcases lower with strict | ⟨_, index⟩
    · exact strict
    · -- a pair in front of the candidate has a smaller index
      exfalso
      rcases mem_pairs inside with ⟨front', back', split⟩
      have sorted := queued.chain.sorted
      have whole : front ++ c.l :: c.r :: back = (front ++ [c.l]) ++ c.r :: back := by simp
      rw [whole, List.pairwise_append] at sorted
      have sorted_front := sorted.1
      have first : p.1 ∈ front := by
        have lengths := congrArg List.length split
        have dropped : front = (front' ++ p.1 :: p.2 :: back').dropLast := by
          rw [← split, List.dropLast_concat]
        rw [dropped, List.dropLast_append_of_ne_nil (by simp)]
        simp
      rw [List.pairwise_append] at sorted_front
      have below := sorted_front.2.2 p.1 first c.l (by simp)
      simp only at index
      omega
  · intro p inside k keyed_p
    have lower := bound p (by simp [inside]) k keyed_p
    rw [mcRank, Prod.Lex.toLex_le_toLex] at lower
    rcases lower with strict | ⟨same, _⟩
    · exact le_of_lt strict
    · exact le_of_eq same

theorem absorb_eq {sym : Syms} {l j k : Nat} (next : (sym l).next = some j) (other : k ≠ j) :
    absorb sym l k = join sym l k := by
  rw [absorb, if_neg]
  rw [next]
  intro same
  exact other (Option.some.inj same).symm

theorem absorb_start (sym : Syms) (l k : Nat) : (absorb sym l k).start = (sym k).start := by
  unfold absorb
  split_ifs
  · exact join_start sym l k
  · exact join_start sym l k

theorem absorb_chain {sym : Syms} {front back : List Nat} {l j : Nat}
    (chain : Chain sym (front ++ l :: j :: back)) :
    Chain (absorb sym l) (front ++ l :: back) ∧
      ∀ i ∈ front ++ l :: back, absorb sym l i = join sym l i := by
  have next : (sym l).next = some j := linked_next chain.links
  have distinct := chain.sorted.imp (fun {a b} (below : a < b) => Nat.ne_of_lt below)
  have same : ∀ i ∈ front ++ l :: back, absorb sym l i = join sym l i := by
    intro i inside
    apply absorb_eq next
    intro here
    subst here
    simp only [List.pairwise_append, List.pairwise_cons, List.mem_cons] at distinct
    rcases distinct with ⟨_, ⟨l_ne, j_ne, _⟩, apart⟩
    rcases List.mem_append.mp inside with in_front | in_tail
    · exact apart i in_front i (Or.inr (Or.inl rfl)) rfl
    · rcases List.mem_cons.mp in_tail with at_l | in_back
      · exact l_ne i (Or.inl rfl) at_l.symm
      · exact j_ne i in_back rfl
  have joined := join_chain chain
  refine ⟨⟨?_, joined.sorted, joined.first⟩, same⟩
  apply linked_congr ?_ joined.links
  intro i inside
  rw [same i inside]
  exact ⟨rfl, rfl⟩

theorem absorb_span_other {sym : Syms} {front back : List Nat} {l j : Nat}
    (chain : Chain sym (front ++ l :: j :: back)) {i : Nat} (inside : i ∈ front ++ back) :
    (absorb sym l i).span = (sym i).span := by
  have listed : i ∈ front ++ l :: back := by
    simp only [List.mem_append, List.mem_cons] at inside ⊢
    tauto
  have sorted := chain.sorted
  simp only [List.pairwise_append, List.pairwise_cons, List.mem_cons] at sorted
  rcases sorted with ⟨_, ⟨l_below, _, _⟩, apart⟩
  have other : i ≠ l := by
    intro here
    subst here
    rcases List.mem_append.mp inside with in_front | in_back
    · have below := apart i in_front i (Or.inl rfl)
      omega
    · have below := l_below i (Or.inr in_back)
      omega
  rw [(absorb_chain chain).2 i listed]
  exact join_span_other other

/-- The queue after a merge at `l` between `front` and `back`. -/
theorem absorbed_holds {sym : Syms} {front back : List Nat} {l : Nat}
    (chain : Chain sym (front ++ l :: back)) (h : Mheap) (x : Mcand) :
    (pushPair key sym (pushPair key sym h (sym l).prev) (some l)).Holds x ↔
      h.Holds x ∨
      (∃ a k, front.getLast? = some a ∧ keyAt key sym a l = some k ∧ x = candidate sym a l k) ∨
      ∃ b k, back.head? = some b ∧ keyAt key sym l b = some k ∧ x = candidate sym l b k := by
  have prev : (sym l).prev = front.getLast? := by
    have read := linked_prev chain.links
    simpa using read
  have after : (sym l).next = back.head? := linked_next chain.links
  have first : (pushPair key sym h (sym l).prev).Holds x ↔ h.Holds x ∨
      ∃ a k, front.getLast? = some a ∧ keyAt key sym a l = some k ∧ x = candidate sym a l k := by
    rw [prev]
    rcases last : front.getLast? with _ | a
    · simp [pushPair]
    · have before : (sym a).next = some l := by
        rcases List.getLast?_eq_some_iff.mp last with ⟨front', split⟩
        have links := chain.links
        rw [split, List.append_assoc] at links
        exact linked_next links
      rw [push_pair_holds before]
      simp
  rcases head : back.head? with _ | b
  · rw [push_pair_last (by rw [after, head]), first]
    simp
  · rw [push_pair_holds (by rw [after, head]), first]
    simp [or_assoc]

theorem absorb_queued {sym : Syms} {front back : List Nat} {h h' : Mheap} {c : Mcand}
    (queued : Queued key sym (front ++ c.l :: c.r :: back) h) (popped : Popped h c h') :
    Queued key (absorb sym c.l) (front ++ c.l :: back)
      (pushPair key (absorb sym c.l) (pushPair key (absorb sym c.l) h' (absorb sym c.l c.l).prev)
        (some c.l)) := by
  have chain := queued.chain
  have next : (sym c.l).next = some c.r := linked_next chain.links
  have chain' := (absorb_chain chain).1
  have holds := fun x => @absorbed_holds key _ _ _ _ chain' h' x
  have alive : ∀ i ∈ front ++ c.l :: back, 0 < (absorb sym c.l i).len := by
    intro i inside
    by_cases here : i = c.l
    · rw [(absorb_chain chain).2 i inside, here, join_at next]
      have old := queued.alive c.l (by simp)
      exact Nat.add_pos_left old _
    · have kept : i ∈ front ++ back := by
        simp only [List.mem_append, List.mem_cons] at inside ⊢
        tauto
      have old := queued.alive i (by simp only [List.mem_append, List.mem_cons] at kept ⊢; tauto)
      have same_len := congrArg Prod.snd (absorb_span_other chain kept)
      exact lt_of_lt_of_eq old same_len.symm
  constructor
  · exact chain'
  · intro i absent
    by_cases absorbed : i = c.r
    · simp [absorb, next, absorbed]
    · have outside : i ∉ front ++ c.l :: c.r :: back := by
        simp only [List.mem_append, List.mem_cons] at absent ⊢
        tauto
      have other : i ≠ c.l := by
        intro here
        simp [here] at outside
      rw [absorb_eq next absorbed]
      exact (congrArg Prod.snd (join_span_other other)).trans (queued.dead i outside)
  · exact alive
  · exact push_pair_ordered (push_pair_ordered popped.ordered _) _
  · intro x inside
    rcases (holds x).mp inside with old | ⟨a, k, last, keyed, here⟩ | ⟨b, k, head, keyed, here⟩
    · rw [absorb_start, absorb_start]
      exact queued.sound x (popped.old x old)
    · have listed : a ∈ front ++ c.l :: back := by
        rcases List.getLast?_eq_some_iff.mp last with ⟨front', split⟩
        simp [split]
      rw [here]
      exact ⟨alive a listed, keyed⟩
    · rw [here]
      exact ⟨alive c.l (by simp), keyed⟩
  · intro p adjacent k keyed
    apply (holds _).mpr
    -- a pair the merge does not touch had its candidate before
    have untouched : p.1 ∈ front ++ back → p.2 ∈ front ++ back →
        p ∈ pairs (front ++ c.l :: c.r :: back) →
        h'.Holds (candidate (absorb sym c.l) p.1 p.2 k) := by
      intro first second before
      have span_1 := absorb_span_other chain first
      have span_2 := absorb_span_other chain second
      rw [keyAt, span_1, span_2] at keyed
      have old := queued.complete p before k keyed
      have len_1 := congrArg Prod.snd span_1
      have len_2 := congrArg Prod.snd span_2
      have same : candidate (absorb sym c.l) p.1 p.2 k = candidate sym p.1 p.2 k := by
        simp only [Sym.span] at len_1 len_2
        simp only [candidate, len_1, len_2]
      rw [same]
      rcases popped.kept _ old with taken | kept
      · -- the candidate taken out starts at the merged symbol
        exfalso
        have at_l : p.1 = c.l := congrArg Mcand.l taken
        rw [at_l] at first
        have sorted := chain.sorted
        simp only [List.pairwise_append, List.pairwise_cons, List.mem_cons] at sorted
        rcases List.mem_append.mp first with in_front | in_back
        · have below := sorted.2.2 c.l in_front c.l (Or.inl rfl)
          omega
        · have below := sorted.2.1.1 c.l (Or.inr in_back)
          omega
      · exact kept
    rcases pairs_around adjacent with in_front | ⟨last, right⟩ | ⟨left, head⟩ | in_back
    · left
      have whole := @pairs_inside _ [] _ (c.l :: c.r :: back) _ in_front
      rcases mem_pairs in_front with ⟨f, b, split⟩
      apply untouched
      · simp [split]
      · simp [split]
      · simpa using whole
    · right
      left
      rw [right] at keyed ⊢
      exact ⟨p.1, k, last, keyed, rfl⟩
    · right
      right
      rw [left] at keyed ⊢
      exact ⟨p.2, k, head, keyed, rfl⟩
    · left
      have whole := @pairs_inside _ (front ++ [c.l, c.r]) _ [] _ in_back
      rcases mem_pairs in_back with ⟨f, b, split⟩
      apply untouched
      · simp [split]
      · simp [split]
      · simpa using whole

theorem stale_queued {sym : Syms} {xs : List Nat} {h h' : Mheap} {c : Mcand}
    (queued : Queued key sym xs h) (popped : Popped h c h') (stale : mcLive c sym = false) :
    Queued key sym xs h' := by
  refine ⟨queued.chain, queued.dead, queued.alive, popped.ordered, ?_, ?_⟩
  · intro x inside
    exact queued.sound x (popped.old x inside)
  · intro p adjacent k keyed
    rcases popped.kept _ (queued.complete p adjacent k keyed) with taken | kept
    · have live := candidate_live queued.chain adjacent k
      rw [taken, stale] at live
      cases live
    · exact kept

theorem queue_merges (rounds n : Nat) {sym : Syms} {xs : List Nat} {h : Mheap}
    (queued : Queued key sym xs h) (short : xs.length ≤ n)
    (enough : h.n + 2 * xs.length ≤ rounds + 2) :
    Merges key glue (xs.map fun i => (sym i).span) (pieces (queueLoop key rounds sym h) n (some 0)) := by
  induction rounds generalizing sym xs h with
  | zero =>
      have nothing : Stuck (keyAt key sym) xs := by
        intro p adjacent
        rcases keyed : keyAt key sym p.1 p.2 with _ | k
        · rfl
        · rcases queued.complete p adjacent k keyed with ⟨i, below, _⟩
          rcases mem_pairs adjacent with ⟨front, back, split⟩
          rw [split] at enough
          simp at enough
          omega
      exact merges_stuck queued.chain short nothing
  | succ rounds ih =>
      unfold queueLoop
      rcases popped : mhPop h with _ | ⟨c, h'⟩
      · have nothing : Stuck (keyAt key sym) xs := by
          intro p adjacent
          rcases keyed : keyAt key sym p.1 p.2 with _ | k
          · rfl
          · exact absurd (queued.complete p adjacent k keyed) (mh_pop_none popped _)
        exact merges_stuck queued.chain short nothing
      · have out := mh_pop_some queued.ordered popped
        have smaller := out.smaller
        simp only
        by_cases live : mcLive c sym = true
        · rw [if_pos live]
          rcases live_candidate queued out.taken live with ⟨keyed, next, front, back, split⟩
          subst split
          have best := queued_best queued out keyed
          have queued' := absorb_queued queued out
          have size_1 := @push_pair_size key (absorb sym c.l) h' (absorb sym c.l c.l).prev
          have size_2 := @push_pair_size key (absorb sym c.l)
            (pushPair key (absorb sym c.l) h' (absorb sym c.l c.l).prev) (some c.l)
          have lengths : (front ++ c.l :: c.r :: back).length = (front ++ c.l :: back).length + 1 := by
            simp
            omega
          apply merges_at queued.chain best
          have same : ((front ++ c.l :: back).map fun i => (join sym c.l i).span) =
              (front ++ c.l :: back).map fun i => (absorb sym c.l i).span := by
            apply List.map_congr_left
            intro i inside
            rw [(absorb_chain queued.chain).2 i inside]
          rw [same]
          apply ih queued'
          · omega
          · omega
        · rw [if_neg live]
          have stale : mcLive c sym = false := by simpa using live
          apply ih (stale_queued queued out stale) short
          omega

/-! ## The queue at the start -/

theorem pushes_hold {sym : Syms} (ps : List (Nat × Nat))
    (linked_ : ∀ p ∈ ps, (sym p.1).next = some p.2) (h : Mheap) (x : Mcand) :
    (ps.foldl (fun h p => pushPair key sym h (some p.1)) h).Holds x ↔
      h.Holds x ∨ ∃ p ∈ ps, ∃ k, keyAt key sym p.1 p.2 = some k ∧ x = candidate sym p.1 p.2 k := by
  induction ps generalizing h with
  | nil => simp
  | cons p ps ih =>
      rw [List.foldl_cons, ih (fun q inside => linked_ q (List.mem_cons_of_mem _ inside)),
        push_pair_holds (linked_ p (by simp))]
      simp [or_assoc]

theorem pushes_ordered {sym : Syms} (ps : List (Nat × Nat)) {h : Mheap} (order : h.Ordered) :
    (ps.foldl (fun h p => pushPair key sym h (some p.1)) h).Ordered := by
  induction ps generalizing h with
  | nil => exact order
  | cons p ps ih => exact ih (push_pair_ordered order _)

theorem seeded_queued {spans : List Span} (some_ : spans ≠ []) (lens : ∀ span ∈ spans, 0 < span.2) :
    Queued key (linked spans) (List.range spans.length)
      (seeded key (linked spans) spans.length) := by
  have chain := linked_chain some_
  have next : ∀ p ∈ pairs (List.range spans.length), (linked spans p.1).next = some p.2 := by
    intro p adjacent
    rcases mem_pairs adjacent with ⟨front, back, split⟩
    have links := chain.links
    rw [split] at links
    exact linked_next links
  have walked : seeded key (linked spans) spans.length =
      (pairs (List.range spans.length)).foldl
        (fun h p => pushPair key (linked spans) h (some p.1)) mhInit := by
    have links := chain.links
    have first := chain.first
    rcases range : List.range spans.length with _ | ⟨i, rest⟩
    · rw [range] at first
      cases first
    · rw [range] at links first
      injection first with zero
      subst zero
      have short := congrArg List.length range
      simp only [List.length_range, List.length_cons] at short
      exact walk_pairs (fun h i _ => pushPair key (linked spans) h (some i)) links
        (by omega) mhInit
  have empty : ∀ x, ¬mhInit.Holds x := by
    rintro x ⟨i, below, _⟩
    exact absurd below (Nat.not_lt_zero i)
  rw [walked]
  constructor
  · exact chain
  · intro i absent
    have beyond : spans.length ≤ i := by simpa using absent
    simp [linked, List.getD_eq_getElem?_getD, List.getElem?_eq_none beyond]
  · intro i inside
    have below : i < spans.length := by simpa using inside
    apply lens
    simp [List.getD_eq_getElem?_getD, below]
  · apply pushes_ordered
    intro i positive below
    exact absurd below (Nat.not_lt_zero i)
  · intro x inside
    rcases (pushes_hold _ next mhInit x).mp inside with old | ⟨p, adjacent, k, keyed, here⟩
    · exact absurd old (empty x)
    · rw [here]
      rcases mem_pairs adjacent with ⟨front, back, split⟩
      have listed : p.1 ∈ List.range spans.length := by
        rw [split]
        simp
      have below : p.1 < spans.length := by simpa using listed
      refine ⟨?_, keyed⟩
      apply lens
      simp [List.getD_eq_getElem?_getD, below]
  · intro p adjacent k keyed
    exact (pushes_hold _ next mhInit _).mpr (Or.inr ⟨p, adjacent, k, keyed, rfl⟩)

theorem merge_queue_merges {spans : List Span} (some_ : spans ≠ [])
    (lens : ∀ span ∈ spans, 0 < span.2) :
    Merges key glue spans
      (pieces (mergeQueue key spans.length (linked spans)) spans.length (some 0)) := by
  have merges := queue_merges ((seeded key (linked spans) spans.length).n + 2 * spans.length)
    spans.length (@seeded_queued key _ some_ lens) (by simp) (by simp)
  rw [linked_spans] at merges
  exact merges

end GridcoreRunner.Tok
