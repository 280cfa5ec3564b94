import GridcoreRunner.Pool.Caller

/-!
# The account of a run

The slices of the threads cut up the items of a job. When all workers are through with a
generation, every thread has had its slice, so the run is complete.
-/

namespace GridcoreRunner.Pool

set_option autoImplicit false

open Table

variable {Work : Type*} {nThreads : Nat} {s : State Work}

/-! ## The slices -/

theorem slice_items (idx nThreads nItems : Nat) :
    let per := (nItems + nThreads - 1) / nThreads
    tpSlice idx nThreads nItems = (min (idx * per) nItems, min (idx * per + per) nItems) := by
  intro per
  have low : ∀ a : Nat, (if a > nItems then nItems else a) = min a nItems := by
    intro a
    by_cases above : a > nItems
    · rw [if_pos above, Nat.min_eq_right (Nat.le_of_lt above)]
    · rw [if_neg above, Nat.min_eq_left (Nat.le_of_not_lt above)]
  unfold tpSlice
  simp only [low]
  rfl

/-- The slices of the threads, one after the other, are the items. -/
theorem slices_cover {nThreads : Nat} (some' : 0 < nThreads) (nItems : Nat) :
    (List.range nThreads).flatMap (fun idx => List.range' (tpSlice idx nThreads nItems).1
      ((tpSlice idx nThreads nItems).2 - (tpSlice idx nThreads nItems).1)) =
        List.range nItems := by
  have upTo : ∀ k, (List.range k).flatMap (fun idx => List.range' (tpSlice idx nThreads nItems).1
      ((tpSlice idx nThreads nItems).2 - (tpSlice idx nThreads nItems).1)) =
        List.range (min (k * ((nItems + nThreads - 1) / nThreads)) nItems) := by
    intro k
    induction k with
    | zero =>
        rw [Nat.zero_mul, Nat.zero_min]
        rfl
    | succ k induction =>
        rw [List.range_succ, List.flatMap_append, induction, List.flatMap_singleton, slice_items,
          Nat.succ_mul, List.range_eq_range', List.range_eq_range']
        have joined := @List.range'_append 0
          (min (k * ((nItems + nThreads - 1) / nThreads)) nItems)
          (min (k * ((nItems + nThreads - 1) / nThreads) +
            (nItems + nThreads - 1) / nThreads) nItems -
              min (k * ((nItems + nThreads - 1) / nThreads)) nItems) 1
        rw [Nat.one_mul, Nat.zero_add] at joined
        rw [joined]
        generalize (nItems + nThreads - 1) / nThreads = per
        congr 1
        omega
  have all : nItems ≤ nThreads * ((nItems + nThreads - 1) / nThreads) := by
    have split := Nat.div_add_mod (nItems + nThreads - 1) nThreads
    have rest := Nat.mod_lt (nItems + nThreads - 1) some'
    omega
  rw [upTo, Nat.min_eq_right all]

/-- Once all are through, the account of the run is complete. -/
theorem Inv.complete (inv : Inv nThreads s) (some' : 0 < nThreads)
    (running : s.caller.inRun = true) (computed : s.caller.computed = true)
    (all : ∀ i < target nThreads, through s.gen (s.workers i) = true) :
    Complete (s.job, s.ran) := by
  constructor
  · intro r member
    exact (inv.ranJob r member).1
  · have each : (s.ran.map Ran.idx).Perm (List.range nThreads) := by
      rw [List.perm_iff_count]
      intro idx
      by_cases inside : idx < nThreads
      · have once : (List.range nThreads).count idx = 1 :=
          List.count_eq_one_of_mem List.nodup_range (List.mem_range.mpr inside)
        rw [once]
        cases idx with
        | zero =>
            rw [inv.ranCaller, computed]
            rfl
        | succ i =>
            have below : i < target nThreads := by
              unfold target
              omega
            have done := all i below
            unfold through at done
            rw [Bool.and_eq_true, decide_eq_true_eq] at done
            have past : (s.workers i).pc.past = true := by
              cases pc : (s.workers i).pc with
              | read =>
                  rw [pc] at done
                  cases done.2
              | work job =>
                  rw [pc] at done
                  cases done.2
              | _ => rfl
            have counted := (inv.workers i below).ran
            simp only [State.view, running, done.1, past, and_self, if_true] at counted
            exact counted
      · have none' : (List.range nThreads).count idx = 0 :=
          List.count_eq_zero_of_not_mem fun member => inside (List.mem_range.mp member)
        rw [none']
        apply List.count_eq_zero_of_not_mem
        intro member
        obtain ⟨r, ran, same⟩ := List.mem_map.mp member
        have below := (inv.ranJob r ran).2.1
        rw [same] at below
        exact inside below
    have items : s.ran.flatMap Ran.items = (s.ran.map Ran.idx).flatMap (fun idx =>
        List.range' (tpSlice idx nThreads s.job.nItems).1
          ((tpSlice idx nThreads s.job.nItems).2 - (tpSlice idx nThreads s.job.nItems).1)) := by
      rw [List.flatMap_map]
      apply List.flatMap_congr
      intro r member
      unfold Ran.items
      rw [(inv.ranJob r member).2.2]
    rw [items, ← slices_cover some' s.job.nItems]
    exact each.flatMap_right _

/-- A full count: all are through. -/
theorem Inv.all_through (inv : Inv nThreads s) (running : s.caller.quiet = false)
    (full : target nThreads ≤ s.nDone) :
    ∀ i < target nThreads, through s.gen (s.workers i) = true := by
  intro i inside
  rw [inv.done running, count_eq_length] at full
  have whole : ((List.range (target nThreads)).filter fun i =>
      through s.gen (s.workers i)).length = (List.range (target nThreads)).length := by
    apply Nat.le_antisymm (List.length_filter_le _ _)
    rw [List.length_range]
    exact full
  exact List.length_filter_eq_length_iff.mp whole i (List.mem_range.mpr inside)

end GridcoreRunner.Pool
