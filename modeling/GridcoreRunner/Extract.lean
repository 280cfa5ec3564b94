import Mathlib.Data.List.Sort
import Mathlib.Tactic.Common

/-!
# Extraction one by one

The first of the least is found by a sweep, taken out, and the sweep starts again. What comes
out are the first of the places in the order of their keys, equal keys in the order of the
places.
-/

namespace GridcoreRunner.Extract

set_option autoImplicit false

variable {K : Type*} [LinearOrder K]

/-- First the lower key, then the lower place. -/
def ahead (key : Nat → K) (a b : Nat) : Bool := decide (key a < key b ∨ key a = key b ∧ a ≤ b)

/-- Places in the order of their keys. -/
def ranked (key : Nat → K) (places : List Nat) : List Nat := places.mergeSort (ahead key)

section Order

variable {key : Nat → K} {a b c : Nat}

theorem ahead_iff : ahead key a b = true ↔ key a < key b ∨ key a = key b ∧ a ≤ b := by
  unfold ahead
  exact decide_eq_true_iff

theorem ahead_trans (first : ahead key a b = true) (second : ahead key b c = true) :
    ahead key a c = true := by
  rw [ahead_iff] at first second ⊢
  obtain less | ⟨same, le⟩ := first
  · obtain less' | ⟨same', _⟩ := second
    · exact Or.inl (lt_trans less less')
    · rw [← same']
      exact Or.inl less
  · rw [same]
    obtain less' | ⟨same', le'⟩ := second
    · exact Or.inl less'
    · exact Or.inr ⟨same', Nat.le_trans le le'⟩

theorem ahead_total (key : Nat → K) (a b : Nat) : (ahead key a b || ahead key b a) = true := by
  rw [Bool.or_eq_true, ahead_iff, ahead_iff]
  obtain less | same | more := lt_trichotomy (key a) (key b)
  · exact Or.inl (Or.inl less)
  · obtain le | le := Nat.le_total a b
    · exact Or.inl (Or.inr ⟨same, le⟩)
    · exact Or.inr (Or.inr ⟨same.symm, le⟩)
  · exact Or.inr (Or.inl more)

theorem ahead_antisymm (first : ahead key a b = true) (second : ahead key b a = true) : a = b := by
  rw [ahead_iff] at first second
  obtain less | ⟨same, le⟩ := first
  · obtain less' | ⟨same', _⟩ := second
    · exact absurd less' (lt_asymm less)
    · rw [same'] at less
      exact absurd less (lt_irrefl _)
  · obtain less' | ⟨_, le'⟩ := second
    · rw [same] at less'
      exact absurd less' (lt_irrefl _)
    · exact Nat.le_antisymm le le'

end Order

theorem ranked_perm (key : Nat → K) (places : List Nat) : (ranked key places).Perm places :=
  List.mergeSort_perm places (ahead key)

theorem ranked_order (key : Nat → K) (places : List Nat) :
    (ranked key places).Pairwise fun a b => ahead key a b = true :=
  @List.pairwise_mergeSort Nat (ahead key) (fun _ _ _ => ahead_trans) (ahead_total key) places

/-- A sorted arrangement is the ranking. -/
theorem ranked_unique {key : Nat → K} {places sorted : List Nat} (perm : sorted.Perm places)
    (order : sorted.Pairwise fun a b => ahead key a b = true) : ranked key places = sorted := by
  apply List.Perm.eq_of_pairwise _ (ranked_order key places) order
  · exact (ranked_perm key places).trans perm.symm
  · intro a b _ _ first second
    exact ahead_antisymm first second

/-- The ranking starts with what is ahead of all the others. -/
theorem ranked_cons {key : Nat → K} {places : List Nat} {b : Nat} (inside : b ∈ places)
    (least : ∀ a ∈ places, ahead key b a = true) :
    ranked key places = b :: ranked key (places.erase b) := by
  apply ranked_unique
  · exact ((ranked_perm key (places.erase b)).cons b).trans (List.perm_cons_erase inside).symm
  · rw [List.pairwise_cons]
    constructor
    · intro a later
      have other := (ranked_perm key (places.erase b)).subset later
      exact least a (List.mem_of_mem_erase other)
    · exact ranked_order key (places.erase b)

theorem ranked_congr {key key' : Nat → K} {places : List Nat}
    (same : ∀ a ∈ places, key a = key' a) : ranked key places = ranked key' places := by
  apply ranked_unique (ranked_perm key' places)
  have order := ranked_order key' places
  rw [List.pairwise_iff_forall_sublist] at order ⊢
  intro a b pair
  have before := order pair
  have first := (ranked_perm key' places).subset (pair.subset (List.mem_cons_self ..))
  have second := (ranked_perm key' places).subset
    (pair.subset (List.mem_cons_of_mem _ (List.mem_cons_self ..)))
  rw [ahead_iff] at before ⊢
  rw [same a first, same b second]
  exact before

/-! ## The sweep -/

section Sweep

variable (key : Nat → K) (eligible : Nat → Bool)

/-- A place is better than what the sweep holds. -/
def better (held : Option Nat) (e : Nat) : Bool :=
  match held with
  | none => true
  | some b => decide (key e < key b)

def sweepStep (held : Option Nat) (e : Nat) : Option Nat :=
  if eligible e && better key held e then some e else held

/-- The first of the least eligible places below `n`. -/
def sweep (n : Nat) : Option Nat := (List.range n).foldl (sweepStep key eligible) none

/-- What comes out of so many sweeps. -/
def extract (n : Nat) : Nat → (Nat → Bool) → List Nat
  | 0, _ => []
  | k + 1, eligible =>
      match sweep key eligible n with
      | none => []
      | some b => b :: extract n k fun e => eligible e && e != b

end Sweep

variable {key : Nat → K} {eligible : Nat → Bool} {n : Nat}

theorem sweep_succ : sweep key eligible (n + 1) = sweepStep key eligible (sweep key eligible n) n := by
  unfold sweep
  rw [List.range_succ, List.foldl_append]
  rfl

/-- The sweep holds nothing where nothing is eligible, or what is ahead of all the eligible. -/
theorem sweep_spec (key : Nat → K) (eligible : Nat → Bool) (n : Nat) :
    (sweep key eligible n = none ∧ ∀ e < n, eligible e = false) ∨
      ∃ b < n, sweep key eligible n = some b ∧ eligible b = true ∧
        ∀ e < n, eligible e = true → ahead key b e = true := by
  induction n with
  | zero =>
      refine Or.inl ⟨rfl, ?_⟩
      intro e below
      exact absurd below (Nat.not_lt_zero e)
  | succ n induction =>
      rw [sweep_succ]
      cases here : eligible n with
      | false =>
          have still : ∀ held, sweepStep key eligible held n = held := by
            intro held
            unfold sweepStep
            rw [here, Bool.false_and, if_neg Bool.false_ne_true]
          rw [still]
          obtain ⟨nothing, none'⟩ | ⟨b, below, held, fine, least⟩ := induction
          · refine Or.inl ⟨nothing, ?_⟩
            intro e inside
            obtain earlier | same := Nat.lt_succ_iff_lt_or_eq.mp inside
            · exact none' e earlier
            · rw [same]
              exact here
          · refine Or.inr ⟨b, Nat.lt_succ_of_lt below, held, fine, ?_⟩
            intro e inside able
            obtain earlier | same := Nat.lt_succ_iff_lt_or_eq.mp inside
            · exact least e earlier able
            · rw [same, here] at able
              cases able
      | true =>
          apply Or.inr
          obtain ⟨nothing, none'⟩ | ⟨b, below, held, fine, least⟩ := induction
          · refine ⟨n, Nat.lt_succ_self n, ?_, here, ?_⟩
            · unfold sweepStep
              rw [nothing, here]
              rfl
            · intro e inside able
              obtain earlier | same := Nat.lt_succ_iff_lt_or_eq.mp inside
              · rw [none' e earlier] at able
                cases able
              · rw [ahead_iff, same]
                exact Or.inr ⟨rfl, Nat.le_refl n⟩
          · rw [held]
            by_cases less : key n < key b
            · refine ⟨n, Nat.lt_succ_self n, ?_, here, ?_⟩
              · unfold sweepStep better
                simp only [here, less, decide_true, Bool.and_self, if_true]
              · intro e inside able
                obtain earlier | same := Nat.lt_succ_iff_lt_or_eq.mp inside
                · have front : ahead key n b = true := ahead_iff.mpr (Or.inl less)
                  exact ahead_trans front (least e earlier able)
                · rw [ahead_iff, same]
                  exact Or.inr ⟨rfl, Nat.le_refl n⟩
            · refine ⟨b, Nat.lt_succ_of_lt below, ?_, fine, ?_⟩
              · unfold sweepStep better
                simp only [here, less, decide_false, Bool.and_false, Bool.false_eq_true, if_false]
              · intro e inside able
                obtain earlier | same := Nat.lt_succ_iff_lt_or_eq.mp inside
                · exact least e earlier able
                · rw [ahead_iff, same]
                  obtain more | equal := lt_or_eq_of_le (not_lt.mp less)
                  · exact Or.inl more
                  · exact Or.inr ⟨equal, Nat.le_of_lt below⟩

/-- What comes out are the first of the ranking. -/
theorem extract_ranked (key : Nat → K) (n k : Nat) (eligible : Nat → Bool) :
    extract key n k eligible = (ranked key ((List.range n).filter eligible)).take k := by
  induction k generalizing eligible with
  | zero => rw [List.take_zero, extract]
  | succ k induction =>
      rw [extract]
      obtain ⟨nothing, none'⟩ | ⟨b, below, held, fine, least⟩ := sweep_spec key eligible n
      · have empty : (List.range n).filter eligible = [] := by
          rw [List.filter_eq_nil_iff]
          intro e inside
          rw [none' e (List.mem_range.mp inside)]
          exact Bool.false_ne_true
        rw [nothing, empty]
        have nil : ranked key [] = [] := List.mergeSort_nil
        rw [nil, List.take_nil]
      · have inside : b ∈ (List.range n).filter eligible :=
          List.mem_filter.mpr ⟨List.mem_range.mpr below, fine⟩
        have front := @ranked_cons K _ key _ b inside (by
          intro a among
          obtain ⟨range, able⟩ := List.mem_filter.mp among
          exact least a (List.mem_range.mp range) able)
        have rest : ((List.range n).filter eligible).erase b =
            (List.range n).filter fun e => eligible e && e != b := by
          rw [List.Nodup.erase_eq_filter (List.nodup_range.filter _), List.filter_filter]
          apply List.filter_congr
          intro e _
          exact Bool.and_comm _ _
        rw [held, front, List.take_succ_cons, rest, ← induction]

theorem extract_congr {key key' : Nat → K} {n k : Nat} {eligible eligible' : Nat → Bool}
    (same : ∀ e < n, eligible e = eligible' e)
    (keys : ∀ e < n, eligible e = true → key e = key' e) :
    extract key n k eligible = extract key' n k eligible' := by
  have places : (List.range n).filter eligible = (List.range n).filter eligible' := by
    apply List.filter_congr
    intro e inside
    exact same e (List.mem_range.mp inside)
  rw [extract_ranked, extract_ranked, ← places, ranked_congr]
  intro a among
  obtain ⟨inside, able⟩ := List.mem_filter.mp among
  exact keys a (List.mem_range.mp inside) able

end GridcoreRunner.Extract
