import Mathlib.Data.List.Basic
import Mathlib.Data.List.Range
import Mathlib.Logic.Function.Basic
import Mathlib.Tactic.Common

/-!
# Independent lanes

A job is a number of lanes, each with its own list of steps. The lanes share one memory, but
what a step of a lane changes, and what it looks at, is that lane's own part of it: the
lane's view. Whatever order the steps of different lanes are taken in, the memory comes out
the same, as long as each lane takes its own steps in their order.

And loops: a loop over two steps in a row is two loops where the later step of one round
does not get in the way of the earlier step of the rounds after it.
-/

namespace GridcoreRunner.Lanes

set_option autoImplicit false

section Order

variable {Lane Step Mem : Type*} {Part : Lane → Type*}

/-- The steps of a list, one after the other, each in its lane. -/
def run (act : Lane → Step → Mem → Mem) (trace : List (Lane × Step)) (mem : Mem) : Mem :=
  trace.foldl (fun mem taken => act taken.1 taken.2 mem) mem

variable {act : Lane → Step → Mem → Mem}

@[simp] theorem run_cons (taken : Lane × Step) (trace : List (Lane × Step)) (mem : Mem) :
    run act (taken :: trace) mem = run act trace (act taken.1 taken.2 mem) := rfl

theorem run_append (first second : List (Lane × Step)) (mem : Mem) :
    run act (first ++ second) mem = run act second (run act first mem) := by
  unfold run
  rw [List.foldl_append]

variable [DecidableEq Lane]

/-- The steps that a list takes in one lane, in their order. -/
def taken (lane : Lane) (trace : List (Lane × Step)) : List Step :=
  (trace.filter fun step => step.1 = lane).map Prod.snd

theorem taken_append (lane : Lane) (first second : List (Lane × Step)) :
    taken lane (first ++ second) = taken lane first ++ taken lane second := by
  unfold taken
  rw [List.filter_append, List.map_append]

theorem taken_cons_self (lane : Lane) (step : Step) (trace : List (Lane × Step)) :
    taken lane ((lane, step) :: trace) = step :: taken lane trace := by
  simp [taken]

theorem taken_cons_other {lane other : Lane} (differ : other ≠ lane) (step : Step)
    (trace : List (Lane × Step)) : taken lane ((other, step) :: trace) = taken lane trace := by
  simp [taken, differ]

theorem taken_flatMap {Round : Type*} (lane : Lane) (rounds : List Round)
    (steps : Round → List (Lane × Step)) :
    taken lane (rounds.flatMap steps) = rounds.flatMap fun round => taken lane (steps round) := by
  induction rounds with
  | nil => rfl
  | cons round rounds induction =>
      rw [List.flatMap_cons, List.flatMap_cons, taken_append, induction]

/-- The steps of one lane, written down as steps of that lane. -/
theorem taken_map_self (lane : Lane) (steps : List Step) :
    taken lane (steps.map fun step => (lane, step)) = steps := by
  induction steps with
  | nil => rfl
  | cons step steps induction => rw [List.map_cons, taken_cons_self, induction]

theorem taken_map_other {lane other : Lane} (differ : other ≠ lane) (steps : List Step) :
    taken lane (steps.map fun step => (other, step)) = [] := by
  induction steps with
  | nil => rfl
  | cons step steps induction => rw [List.map_cons, taken_cons_other differ, induction]

/-- What a list takes in a lane it names only once. -/
theorem taken_lanes (lanes : Nat) (program : Nat → List Step) {lane : Nat} (inside : lane < lanes) :
    taken lane ((List.range lanes).flatMap fun i => (program i).map fun step => (i, step)) =
      program lane := by
  induction lanes with
  | zero => exact absurd inside (Nat.not_lt_zero lane)
  | succ lanes induction =>
      rw [List.range_succ, List.flatMap_append, List.flatMap_singleton, taken_append]
      by_cases last : lane = lanes
      · have before : taken lane ((List.range lanes).flatMap fun i =>
            (program i).map fun step => (i, step)) = [] := by
          rw [taken_flatMap, List.flatMap_eq_nil_iff]
          intro i below
          apply taken_map_other
          have lower := List.mem_range.mp below
          omega
        rw [before, last, taken_map_self, List.nil_append]
      · rw [induction (by omega), taken_map_other (Ne.symm last), List.append_nil]

/-- A list of steps that works off the lanes `0 … lanes - 1`, each in the order of its
program, however the lanes take turns. -/
def Interleaves (lanes : Nat) (program : Nat → List Step) (trace : List (Nat × Step)) : Prop :=
  (∀ step ∈ trace, step.1 < lanes) ∧ ∀ lane < lanes, taken lane trace = program lane

/-- One lane after the other is one of the orders. -/
theorem interleaves_lanes (lanes : Nat) (program : Nat → List Step) :
    Interleaves lanes program
      ((List.range lanes).flatMap fun lane => (program lane).map fun step => (lane, step)) := by
  constructor
  · intro step member
    obtain ⟨lane, inside, of⟩ := List.mem_flatMap.mp member
    obtain ⟨at', program, same⟩ := List.mem_map.mp of
    rw [← same]
    exact List.mem_range.mp inside
  · intro lane inside
    exact taken_lanes lanes program inside

theorem Interleaves.taken_any {lanes : Nat} {program : Nat → List Step}
    {trace other : List (Nat × Step)} (one : Interleaves lanes program trace)
    (two : Interleaves lanes program other) (lane : Nat) : taken lane trace = taken lane other := by
  by_cases inside : lane < lanes
  · rw [one.2 lane inside, two.2 lane inside]
  · have nothing : ∀ steps : List (Nat × Step), (∀ step ∈ steps, step.1 < lanes) →
        taken lane steps = [] := by
      intro steps below
      unfold taken
      rw [List.map_eq_nil_iff, List.filter_eq_nil_iff]
      intro step member
      have low := below step member
      simp only [decide_eq_true_eq]
      omega
    rw [nothing trace one.1, nothing other two.1]

/-- The steps taken in a lane are the steps of its program. -/
theorem Interleaves.mem_program {lanes : Nat} {program : Nat → List Step}
    {trace : List (Nat × Step)} (order : Interleaves lanes program trace)
    {step : Nat × Step} (member : step ∈ trace) : step.2 ∈ program step.1 := by
  rw [← order.2 step.1 (order.1 step member)]
  apply List.mem_map.mpr
  exact ⟨step, List.mem_filter.mpr ⟨member, by simp⟩, rfl⟩

/-- What makes lanes independent: a step changes the view of its own lane only, and what it
makes of that view depends on nothing else. -/
structure Independent (allowed : Lane → Step → Prop) (act : Lane → Step → Mem → Mem)
    (view : (lane : Lane) → Mem → Part lane) : Prop where
  frame : ∀ lane other step mem, allowed other step → other ≠ lane →
    view lane (act other step mem) = view lane mem
  own : ∀ lane step mem mem', allowed lane step → view lane mem = view lane mem' →
    view lane (act lane step mem) = view lane (act lane step mem')

variable {allowed : Lane → Step → Prop} {view : (lane : Lane) → Mem → Part lane}

/-- What a lane sees at the end comes from its own steps. -/
theorem Independent.run_view (apart : Independent allowed act view) (lane : Lane)
    {trace : List (Lane × Step)} (fine : ∀ step ∈ trace, allowed step.1 step.2)
    {mem mem' : Mem} (same : view lane mem = view lane mem') :
    view lane (run act trace mem) =
      view lane ((taken lane trace).foldl (fun mem step => act lane step mem) mem') := by
  induction trace generalizing mem mem' with
  | nil => exact same
  | cons first trace induction =>
      obtain ⟨other, step⟩ := first
      rw [List.forall_mem_cons] at fine
      rw [run_cons]
      by_cases here : other = lane
      · subst here
        rw [taken_cons_self, List.foldl_cons]
        exact induction fine.2 (apart.own other step mem mem' fine.1 same)
      · rw [taken_cons_other here]
        apply induction fine.2
        rw [apart.frame lane other step mem fine.1 here]
        exact same

/-- Two orders of the same steps of every lane leave the same memory, where the memory is no
more than what its lanes see. -/
theorem Independent.run_eq (apart : Independent allowed act view)
    (whole : ∀ mem mem' : Mem, (∀ lane, view lane mem = view lane mem') → mem = mem')
    {trace other : List (Lane × Step)} (fine : ∀ step ∈ trace, allowed step.1 step.2)
    (fine' : ∀ step ∈ other, allowed step.1 step.2)
    (same : ∀ lane, taken lane trace = taken lane other) (mem : Mem) :
    run act trace mem = run act other mem := by
  apply whole
  intro lane
  rw [apart.run_view lane fine (Eq.refl (view lane mem)),
    apart.run_view lane fine' (Eq.refl (view lane mem)), same lane]

end Order

/-! ## Loops -/

section Fission

variable {Mem : Type*} {e l : Nat → Mem → Mem}

/-- A loop. -/
def loop (n : Nat) (body : Nat → Mem → Mem) (mem : Mem) : Mem :=
  (List.range n).foldl (fun mem i => body i mem) mem

@[simp] theorem loop_zero (body : Nat → Mem → Mem) (mem : Mem) : loop 0 body mem = mem := rfl

theorem loop_succ (n : Nat) (body : Nat → Mem → Mem) (mem : Mem) :
    loop (n + 1) body mem = body n (loop n body mem) := by
  unfold loop
  rw [List.range_succ, List.foldl_append, List.foldl_cons, List.foldl_nil]

theorem loop_congr {n : Nat} {body other : Nat → Mem → Mem}
    (same : ∀ i < n, ∀ mem, body i mem = other i mem) (mem : Mem) :
    loop n body mem = loop n other mem := by
  induction n with
  | zero => rfl
  | succ n induction =>
      rw [loop_succ, loop_succ, induction fun i below => same i (Nat.lt_succ_of_lt below),
        same n (Nat.lt_succ_self n)]

/-- What one round leaves alone, the loop leaves alone. -/
theorem loop_keeps {Value : Type*} (look : Mem → Value) {n : Nat} {body : Nat → Mem → Mem}
    (kept : ∀ i < n, ∀ mem, look (body i mem) = look mem) (mem : Mem) :
    look (loop n body mem) = look mem := by
  induction n with
  | zero => rfl
  | succ n induction =>
      rw [loop_succ, kept n (Nat.lt_succ_self n),
        induction fun i below => kept i (Nat.lt_succ_of_lt below)]

/-- A step that comes before every round may as well come behind them all. -/
theorem loop_commutes {n : Nat} {body : Nat → Mem → Mem} {s : Mem → Mem}
    (commutes : ∀ i < n, ∀ mem, s (body i mem) = body i (s mem)) (mem : Mem) :
    s (loop n body mem) = loop n body (s mem) := by
  induction n with
  | zero => rfl
  | succ n induction =>
      rw [loop_succ, loop_succ, commutes n (Nat.lt_succ_self n),
        induction fun i below => commutes i (Nat.lt_succ_of_lt below)]

/-- One loop over two steps is two loops. -/
theorem loop_fission (n : Nat)
    (commutes : ∀ i j, i < j → j < n → ∀ mem, e j (l i mem) = l i (e j mem))
    (mem : Mem) :
    loop n (fun i mem => l i (e i mem)) mem = loop n l (loop n e mem) := by
  induction n with
  | zero => rfl
  | succ n induction =>
      have before := induction fun i j below inside => commutes i j below (Nat.lt_succ_of_lt inside)
      have passed := loop_commutes
        (fun i below mem => commutes i n below (Nat.lt_succ_self n) mem) (loop n e mem)
      rw [loop_succ, loop_succ, loop_succ, before, passed]

end Fission

section Loops

variable {Lane Step Mem : Type*} {act : Lane → Step → Mem → Mem}

theorem run_flatMap (n : Nat) (steps : Nat → List (Lane × Step)) (mem : Mem) :
    run act ((List.range n).flatMap steps) mem = loop n (fun i => run act (steps i)) mem := by
  induction n with
  | zero => rfl
  | succ n induction =>
      rw [List.range_succ, List.flatMap_append, List.flatMap_singleton, run_append, induction,
        loop_succ]

theorem run_map (n : Nat) (step : Nat → Lane × Step) (mem : Mem) :
    run act ((List.range n).map step) mem =
      loop n (fun i => act (step i).1 (step i).2) mem := by
  induction n with
  | zero => rfl
  | succ n induction =>
      rw [List.range_succ, List.map_append, run_append, induction, loop_succ]
      rfl

end Loops

/-! ## Parts of a table -/

section Within

variable {β : Type*}

/-- A change of a table that looks at one part of it only, and changes no other. -/
structure Within (own : Nat → Prop) (change : (Nat → β) → Nat → β) : Prop where
  frame : ∀ table i, ¬ own i → change table i = table i
  own : ∀ table other, (∀ i, own i → table i = other i) →
    ∀ i, own i → change table i = change other i

variable {own : Nat → Prop}

theorem Within.update {place : Nat} (inside : own place) {value : (Nat → β) → β}
    (reads : ∀ table other, (∀ i, own i → table i = other i) → value table = value other) :
    Within own fun table => Function.update table place (value table) := by
  constructor
  · intro table i outside
    apply Function.update_of_ne
    intro same
    rw [same] at outside
    exact outside inside
  · intro table other agree i mine
    by_cases here : i = place
    · rw [here, Function.update_self, Function.update_self, reads table other agree]
    · rw [Function.update_of_ne here, Function.update_of_ne here, agree i mine]

theorem Within.comp {first second : (Nat → β) → Nat → β} (one : Within own first)
    (two : Within own second) : Within own fun table => second (first table) := by
  constructor
  · intro table i outside
    rw [two.frame _ i outside, one.frame _ i outside]
  · intro table other agree
    exact two.own _ _ (one.own table other agree)

theorem Within.loop {n : Nat} {body : Nat → (Nat → β) → Nat → β}
    (each : ∀ k < n, Within own (body k)) : Within own (loop n body) := by
  induction n with
  | zero =>
      constructor
      · intro table i _
        rfl
      · intro table other agree
        exact agree
  | succ n induction =>
      have before := induction fun k below => each k (Nat.lt_succ_of_lt below)
      have both := before.comp (each n (Nat.lt_succ_self n))
      have unrolled : Lanes.loop (n + 1) body = fun table => body n (Lanes.loop n body table) :=
        funext fun table => loop_succ n body table
      rw [unrolled]
      exact both

/-- A change of one part passes a write to another. -/
theorem Within.update_comm {change : (Nat → β) → Nat → β} (within : Within own change)
    {place : Nat} (outside : ¬ own place) (value : β) (table : Nat → β) :
    change (Function.update table place value) = Function.update (change table) place value := by
  funext i
  by_cases mine : own i
  · have other : i ≠ place := by
      intro same
      rw [same] at mine
      exact outside mine
    rw [Function.update_of_ne other]
    apply within.own _ _ _ i mine
    intro j inside
    apply Function.update_of_ne
    intro same
    rw [same] at inside
    exact outside inside
  · rw [within.frame _ i mine]
    by_cases here : i = place
    · rw [here, Function.update_self, Function.update_self]
    · rw [Function.update_of_ne here, Function.update_of_ne here, within.frame _ i mine]

end Within

end GridcoreRunner.Lanes
