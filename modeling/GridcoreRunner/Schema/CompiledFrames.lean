import GridcoreRunner.Schema.Compile
import GridcoreRunner.Schema.FrameBudget
import GridcoreRunner.Yields

/-!
# The frames of a compiled schema

A schema within the limit compiles to a tree that asks for no more frames than there are
levels, and no sequence of it is empty.
-/

namespace GridcoreRunner.Schema

set_option autoImplicit false

open GridcoreRunner.Json

/-- The tree asks for at most so many frames, and no sequence of it is empty. -/
structure Snode.Within (k : Nat) (n : Snode) : Prop where
  frames : n.frames ≤ k
  full : n.full = true

variable {k : Nat} {n : Snode} {nodes : List Snode}

theorem Snode.Within.weaken {k' : Nat} (within : n.Within k) (more : k ≤ k') : n.Within k' :=
  ⟨within.frames.trans more, within.full⟩

theorem Snode.Within.pos (within : n.Within k) : 0 < k :=
  n.frames_pos.trans_le within.frames

theorem within_list (all : ∀ n ∈ nodes, n.Within k) :
    Snode.maxFrames nodes ≤ k ∧ Snode.allFull nodes = true := by
  induction nodes with
  | nil => exact ⟨Nat.zero_le k, rfl⟩
  | cons n rest induction =>
      have behind := induction fun m member => all m (List.mem_cons_of_mem _ member)
      have here := all n List.mem_cons_self
      rw [Snode.maxFrames, Snode.allFull, Bool.and_eq_true_iff]
      exact ⟨max_le here.frames behind.1, here.full, behind.2⟩

theorem within_seq (ws : Bool) (some_ : nodes ≠ []) (all : ∀ n ∈ nodes, n.Within k) :
    (Snode.seq nodes ws).Within (k + 1) := by
  have list := within_list all
  constructor
  · rw [Snode.frames]
    exact Nat.succ_le_succ list.1
  · rw [Snode.full, list.2, Bool.and_true, Bool.not_eq_true', List.isEmpty_eq_false_iff]
    exact some_

theorem within_union (ws : Bool) (pos : 0 < k) (all : ∀ n ∈ nodes, n.Within k) :
    (Snode.union nodes ws).Within k := by
  have list := within_list all
  constructor
  · rw [Snode.frames]
    exact max_le pos list.1
  · rw [Snode.full]
    exact list.2

theorem within_cond (ws : Bool) (pos : 0 < k) (all : ∀ n ∈ nodes, n.Within k) :
    (Snode.cond nodes ws).Within k := by
  have list := within_list all
  constructor
  · rw [Snode.frames]
    exact max_le pos list.1
  · rw [Snode.full]
    exact list.2

theorem within_values {props : List (Member Snode)} (all : ∀ p ∈ props, p.value.Within k) :
    Snode.memberFrames props ≤ k ∧ Snode.membersFull props = true := by
  have values := Snode.member_values props
  have each : ∀ n ∈ props.map Member.value, n.Within k := by
    intro n member
    obtain ⟨p, declared, same⟩ := List.mem_map.mp member
    rw [← same]
    exact all p declared
  have list := within_list each
  rw [values.1, values.2.2]
  exact list

theorem within_obj {props : List (Member Snode)} (all : ∀ p ∈ props, p.value.Within k) :
    (Snode.obj props).Within (k + 1) := by
  have list := within_values all
  constructor
  · rw [Snode.frames]
    exact Nat.succ_le_succ list.1
  · rw [Snode.full]
    exact list.2

theorem within_members {props : List (Member Snode)} (sentinel : Bytes)
    (all : ∀ p ∈ props, p.value.Within k) : (Snode.members props sentinel).Within (k + 1) := by
  have list := within_values all
  constructor
  · rw [Snode.frames]
    exact Nat.succ_le_succ list.1
  · rw [Snode.full]
    exact list.2

theorem within_arr {minItems : Nat} {maxItems : Option Nat} (items : n.Within k) :
    (Snode.arr n minItems maxItems).Within (k + 1) := by
  constructor
  · rw [Snode.frames]
    exact Nat.succ_le_succ items.frames
  · rw [Snode.full]
    exact items.full

theorem within_map (items : n.Within k) : (Snode.map n).Within (k + 1) := by
  constructor
  · rw [Snode.frames]
    exact Nat.succ_le_succ items.frames
  · rw [Snode.full]
    exact items.full

/-- A node without nodes below it. -/
theorem within_leaf (one : n.frames = 1) (full : n.full = true) : n.Within (k + 1) :=
  ⟨one.le.trans (Nat.le_add_left 1 k), full⟩

/-! ## The compiler -/

/-- A compiler of schemas keeps to so many frames. -/
def Compiles (k : Nat) (node : Option Jv → Compiled Snode) : Prop := ∀ s, Yields (Snode.Within k) (node s)

variable {node deeper : Option Jv → Compiled Snode}

theorem integer_frames (s : Jv) : Yields (Snode.Within (k + 1)) (compileIntegerBounds s) := by
  unfold compileIntegerBounds
  split
  · exact yields_error _
  · dsimp only
    exact yields_ite _ (fun _ => yields_ok (within_leaf rfl rfl)) fun _ => yields_error _

theorem number_frames (s : Jv) : Yields (Snode.Within (k + 1)) (compileNumberBounds s) := by
  unfold compileNumberBounds
  split
  · exact yields_error _
  · dsimp only
    exact yields_ite _ (fun _ => yields_ok (within_leaf rfl rfl)) fun _ => yields_error _

theorem string_frames (s : Jv) : Yields (Snode.Within (k + 1)) (compileString s) := by
  unfold compileString
  refine yields_then ?_
  intro bounds
  refine yields_then ?_
  intro pat
  refine yields_then ?_
  intro _
  refine yields_then ?_
  intro _
  exact yields_ok (within_leaf rfl rfl)

theorem obj_node_frames {keys : List Bytes} {req : List Bool} {values : List Snode}
    (all : ∀ n ∈ values, n.Within k) : (objNode keys req values).Within (k + 1) := by
  apply within_obj
  intro p member
  obtain ⟨triple, among, same⟩ := List.mem_map.mp member
  rw [← same]
  exact all _ (List.of_mem_zip (List.of_mem_zip among).2).2

theorem object_frames (nodes : Compiles k node) (s : Jv) :
    Yields (Snode.Within (k + 1)) (compileObject node s) := by
  unfold compileObject
  refine yields_then ?_
  intro _
  dsimp only
  split
  · exact yields_ok (within_leaf rfl rfl)
  · refine yields_ite _ (fun _ => yields_ok (within_leaf rfl rfl)) fun _ => ?_
    refine yields_bind (nodes _) ?_
    intro items within
    exact yields_ok (within_map within)
  · exact yields_ok (within_leaf rfl rfl)
  · refine yields_then ?_
    intro _
    refine yields_bind (yields_map_m fun member _ => yields_then fun _ => nodes _) ?_
    intro values within
    refine yields_then ?_
    intro flags
    exact yields_ok (obj_node_frames within.1)

theorem typed_frames (nodes : Compiles k node) (s : Jv) (type : Bytes) :
    Yields (Snode.Within (k + 1)) (compileTyped node s type) := by
  unfold compileTyped
  refine yields_ite _ (fun _ => string_frames s) fun _ => ?_
  refine yields_ite _ (fun _ => number_frames s) fun _ => ?_
  refine yields_ite _ (fun _ => integer_frames s) fun _ => ?_
  refine yields_ite _ (fun _ => yields_ok (within_leaf rfl rfl)) fun _ => ?_
  refine yields_ite _ (fun _ => yields_ok (within_leaf rfl rfl)) fun _ => ?_
  refine yields_ite _ (fun _ => ?_) fun _ => ?_
  · refine yields_bind (nodes _) ?_
    intro items within
    refine yields_then ?_
    intro bounds
    exact yields_ok (within_arr within)
  · exact yields_ite _ (fun _ => object_frames nodes s) fun _ => yields_error _

theorem enum_frames (values : List Jv) : Yields (Snode.Within (k + 1)) (enumNode values) := by
  unfold enumNode
  refine yields_then ?_
  intro _
  refine yields_then ?_
  intro _
  exact yields_ok (within_leaf rfl rfl)

/-- The branches of an action stand where its arguments do, and there is one at least. -/
theorem action_frames (nodes : Compiles k node) {alts : List Jv} {action : Compiled Snode}
    (matched : compileDiscriminatedAction node alts = some action) :
    Yields (Snode.Within (k + 1)) action := by
  unfold compileDiscriminatedAction at matched
  split at matched
  · cases matched
  next first found =>
    dsimp only at matched
    split at matched
    next tool args tool_at args_at =>
      split_ifs at matched with _ before shared
      · cases matched
        exact yields_error _
      · cases matched
        have head : alts ≠ [] := by
          intro none_
          rw [none_] at found
          cases found
        refine yields_then ?_
        intro _
        refine yields_then ?_
        intro _
        refine yields_then ?_
        intro _
        refine yields_bind (yields_map_m fun alt _ => nodes _) ?_
        intro branches within
        have pos : 0 < k := by
          obtain ⟨branch, rest, shape⟩ := List.exists_cons_of_ne_nil
            (List.ne_nil_of_length_pos (within.2 ▸ List.length_pos_iff.mpr head))
          exact (within.1 branch (by rw [shape]; exact List.mem_cons_self)).pos
        obtain ⟨low, rfl⟩ := Nat.exists_eq_succ_of_ne_zero pos.ne'
        refine yields_bind (P := fun values => ∀ n ∈ values, Snode.Within (low + 1) n) ?_ ?_
        · apply Yields.weaken (yields_map_m (P := Snode.Within (low + 1)) ?_) fun _ both => both.1
          intro member _
          refine yields_ite _ (fun _ => yields_ok (within_leaf rfl rfl)) fun _ => ?_
          exact yields_ite _ (fun _ => yields_ok (within_cond _ pos within.1)) fun _ => nodes _
        · intro values within
          refine yields_then ?_
          intro flags
          refine yields_then ?_
          intro _
          exact yields_ok (obj_node_frames within)
    · cases matched

theorem merged_frames {alts : List Snode} {merged : Snode} (all : mergedLiterals alts = some merged) :
    merged.Within (k + 1) := by
  unfold mergedLiterals at all
  dsimp only at all
  split_ifs at all
  cases all
  exact within_leaf rfl rfl

theorem oneof_frames (nodes : Compiles k node) (v : Jv) :
    Yields (Snode.Within (k + 1)) (compileOneof node v) := by
  unfold compileOneof
  dsimp only
  refine yields_then ?_
  intro _
  refine yields_ite _ (fun _ => enum_frames _) fun _ => ?_
  split
  next action matched => exact action_frames nodes matched
  · refine yields_bind (yields_map_m fun alt _ => nodes _) ?_
    intro alts within
    split
    next merged all => exact yields_ok (merged_frames all)
    · have union : (Snode.union alts false).Within (k + 1) := by
        apply within_union _ (Nat.succ_pos k)
        intro n member
        exact (within.1 n member).weaken (Nat.le_succ k)
      exact yields_ite _ (fun _ => yields_then fun _ => yields_ok union) fun _ => yields_ok union

theorem level_frames (nodes : Compiles k node) {k' : Nat} (less : k' ≤ k)
    (lower : Compiles k' deeper) (s : Option Jv) :
    Yields (Snode.Within (k + 1)) (compileLevel node deeper s) := by
  have any : ∀ {objectRooted : Bool}, (Snode.any objectRooted).Within (k + 1) :=
    within_leaf rfl rfl
  unfold compileLevel
  split
  · exact yields_ok any
  · exact yields_ok any
  · exact yields_ok any
  · dsimp only
    refine yields_ite _ (fun _ => yields_ok any) fun _ => ?_
    refine yields_then ?_
    intro _
    split
    · exact oneof_frames nodes _
    · split
      · exact enum_frames _
      · exact yields_error _
      · exact enum_frames _
      · split
        · refine yields_ite _ (fun _ => typed_frames nodes _ _) fun _ => ?_
          exact yields_ite _ (fun _ => typed_frames nodes _ _) fun _ => yields_ok any
        · exact typed_frames nodes _ _
        · refine yields_then ?_
          intro _
          refine yields_bind (yields_map_m fun name _ => typed_frames lower _ _) ?_
          intro alts within
          apply yields_ok
          apply within_union _ (Nat.succ_pos k)
          intro n member
          exact (within.1 n member).weaken (Nat.succ_le_succ less)
        · exact yields_error _
  · exact yields_error _

theorem too_deep_frames : Compiles 0 tooDeep := fun _ => yields_error _

theorem node_frames (left : Nat) :
    Compiles left (compileNode left) ∧ Compiles (left + 1) (compileNode (left + 1)) := by
  induction left with
  | zero => exact ⟨too_deep_frames, fun s => level_frames too_deep_frames le_rfl too_deep_frames s⟩
  | succ left induction =>
      refine ⟨induction.2, fun s => ?_⟩
      exact level_frames induction.2 (Nat.le_succ left) induction.1 s

/-- A compiled schema asks for no more frames than it may have levels. -/
theorem schema_compile_frames (s : Option Jv) :
    Yields (Snode.Within schemaLevels) (schemaCompile s) := (node_frames schemaLevels).1 s

end GridcoreRunner.Schema
