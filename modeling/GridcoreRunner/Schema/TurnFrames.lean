import GridcoreRunner.Engine.ForcedTail
import GridcoreRunner.Schema.CompiledFrames
import GridcoreRunner.Schema.FrameRuns
import GridcoreRunner.Schema.Gemma
import Mathlib.Data.List.ReduceOption

/-!
# The frames of a native turn

The turns of muse and Harmony keep far below the stack's limit. A gemma4 array takes a frame
for each of its elements, so a turn with arrays in arrays may ask for more frames than there
are; where it does not, the grammar alone refuses a byte.
-/

namespace GridcoreRunner.Schema

set_option autoImplicit false

open GridcoreRunner.Json GridcoreRunner.Template
open GridcoreRunner.Generation (svalRound schemaMachine)

variable {k : Nat} {n : Snode} {nodes : List Snode} {branches : List (Bytes × Snode)}

theorem lit_within (text : Bytes) : (atemLit text).Within (k + 1) := within_leaf rfl rfl

theorem raw_within (sentinel : Bytes) (most : Option Nat) :
    (Snode.raw sentinel most).Within (k + 1) := within_leaf rfl rfl

theorem selection_within (ws : Bool) (all : ∀ branch ∈ branches, branch.2.Within (k + 1)) :
    ∀ n ∈ selection branches ws, n.Within (k + 1) := by
  unfold selection
  refine List.forall_mem_cons.mpr ⟨within_leaf rfl rfl, List.forall_mem_singleton.mpr ?_⟩
  apply within_cond ws (Nat.succ_pos k)
  intro n member
  obtain ⟨branch, among, same⟩ := List.mem_map.mp member
  rw [← same]
  exact all branch among

/-- A selection behind other pieces. -/
theorem selected_within (pieces : List Snode) (ws rootWs : Bool)
    (before : ∀ n ∈ pieces, n.Within (k + 1))
    (all : ∀ branch ∈ branches, branch.2.Within (k + 1)) :
    (Snode.seq (pieces ++ selection branches ws) rootWs).Within (k + 2) := by
  apply within_seq
  · exact List.append_ne_nil_of_right_ne_nil _ (List.cons_ne_nil _ _)
  · exact List.forall_mem_append.mpr ⟨before, selection_within ws all⟩

theorem flagged_values {P : Snode → Prop} {members : List (Member Snode)} (flags : List Bool)
    (all : ∀ p ∈ members, P p.value) : ∀ p ∈ flagged members flags, P p.value := by
  induction members generalizing flags with
  | nil =>
      intro p never
      cases flags <;> cases never
  | cons member rest induction =>
      cases flags with
      | nil =>
          intro p never
          cases never
      | cons flag flags =>
          have parts := List.forall_mem_cons.mp all
          exact List.forall_mem_cons.mpr ⟨parts.1, induction flags parts.2⟩

/-! ## muse -/

theorem branches_within {tools : List Jv} {onlyTool : Option Bytes} {nameless : Nat → Bytes}
    {tail : Bytes → Jv → Compiled Snode}
    (tails : ∀ name tool, Yields (Snode.Within k) (tail name tool)) :
    Yields (fun branches => ∀ branch ∈ branches, branch.2.Within k)
      (toolBranches tools onlyTool nameless tail) := by
  unfold toolBranches
  refine yields_bind (yields_map_m
    (P := fun branch => ∀ b, branch = some b → b.2.Within k) fun item _ => ?_) ?_
  · obtain ⟨tool, i⟩ := item
    dsimp only
    split
    · exact yields_error _
    · refine yields_ite _ (fun _ => yields_error _) fun _ => ?_
      refine yields_ite _ (fun _ => ?_) fun _ => ?_
      · refine yields_map (tails _ _) ?_
        intro n within b same
        cases same
        exact within
      · apply yields_ok
        intro b never
        cases never
  · intro results all
    apply yields_ok
    intro branch member
    exact all.1 (some branch) (List.reduceOption_mem_iff.mp member) branch rfl

/-- A declared schema, or raw text without one. -/
theorem body_within (schema : Option Jv) (sentinel : Bytes) :
    Yields (Snode.Within schemaLevels) (bodyOf schema sentinel) := by
  cases schema with
  | none => exact yields_ok (raw_within _ _)
  | some schema => exact schema_compile_frames _

theorem atem_parameter_within (key : Bytes) (schema : Jv) :
    Yields (fun p => p.value.Within (schemaLevels + 1)) (atemParameter key schema) := by
  unfold atemParameter
  dsimp only
  refine yields_bind (body_within _ _) ?_
  intro value within
  apply yields_ok
  apply within_seq _ (List.cons_ne_nil _ _)
  refine List.forall_mem_cons.mpr ⟨within, List.forall_mem_append.mpr ⟨?_, ?_⟩⟩
  · split
    · exact List.forall_mem_singleton.mpr (lit_within _)
    · exact fun _ never => (List.not_mem_nil never).elim
  · exact List.forall_mem_singleton.mpr (lit_within _)

theorem pair_within {m : Snode} (ws : Bool) (first : n.Within k) (second : m.Within k) :
    (Snode.seq [n, m] ws).Within (k + 1) :=
  within_seq ws (List.cons_ne_nil _ _)
    (List.forall_mem_cons.mpr ⟨first, List.forall_mem_singleton.mpr second⟩)

theorem triple_within {m l : Snode} (ws : Bool) (first : n.Within k) (second : m.Within k)
    (third : l.Within k) : (Snode.seq [n, m, l] ws).Within (k + 1) := by
  apply within_seq ws (List.cons_ne_nil _ _)
  exact List.forall_mem_cons.mpr
    ⟨first, List.forall_mem_cons.mpr ⟨second, List.forall_mem_singleton.mpr third⟩⟩

theorem either_within {m : Snode} (ws : Bool) (first : n.Within k) (second : m.Within k) :
    (Snode.union [n, m] ws).Within k :=
  within_union ws first.pos
    (List.forall_mem_cons.mpr ⟨first, List.forall_mem_singleton.mpr second⟩)

theorem atem_tool_tail_within (tool : Jv) :
    Yields (Snode.Within (schemaLevels + 3)) (atemToolTail tool) := by
  unfold atemToolTail
  dsimp only
  refine yields_then ?_
  intro _
  refine yields_then ?_
  intro _
  refine yields_bind (yields_map_m fun member _ => atem_parameter_within _ _) ?_
  intro members within
  refine yields_then ?_
  intro flags
  apply yields_ok
  apply pair_within _ (lit_within _)
  exact within_members _ (flagged_values flags within.1)

theorem atem_tools_within (tools : Option Jv) :
    Yields (Snode.Within (schemaLevels + 4)) (schemaCompileAtemTools tools) := by
  unfold schemaCompileAtemTools
  refine yields_then ?_
  intro items
  refine yields_bind (branches_within fun _ tool => atem_tool_tail_within tool) ?_
  intro branches within
  apply yields_ok
  exact selected_within [_] _ _ (List.forall_mem_singleton.mpr (lit_within _)) within

theorem atem_call_within (name : Bytes) (tool : Jv) :
    Yields (Snode.Within (schemaLevels + 4)) (atemCall name tool) := by
  unfold atemCall
  refine yields_bind (atem_tool_tail_within tool) ?_
  intro tail within
  exact yields_ok (triple_within _ (lit_within _) (lit_within _) within)

theorem atem_answers_within (allowUser : Bool) (finalSchema : Option Jv) :
    Yields (fun answers => ∀ branch ∈ answers, branch.2.Within (schemaLevels + 4))
      (atemAnswers allowUser finalSchema) := by
  unfold atemAnswers
  refine yields_ite _ (fun _ => ?_) fun _ => yields_ok fun _ never => (List.not_mem_nil never).elim
  refine yields_map (body_within _ _) ?_
  intro value within
  have pair := (pair_within false (lit_within (bytesOf "<|message|>")) within).weaken
    (Nat.add_le_add_left (by decide : 1 ≤ 4) schemaLevels)
  exact List.forall_mem_singleton.mpr pair

theorem atem_turn_prefix_within (tools : Option Jv) (allowUser : Bool) (onlyTool : Option Bytes)
    (finalSchema : Option Jv) (lead : Bytes) :
    Yields (Snode.Within (schemaLevels + 5))
      (schemaCompileAtemTurnPrefix tools allowUser onlyTool finalSchema lead) := by
  unfold schemaCompileAtemTurnPrefix
  refine yields_then ?_
  intro items
  refine yields_then ?_
  intro _
  refine yields_bind (branches_within atem_call_within) ?_
  intro calls calls_within
  refine yields_bind (atem_answers_within _ _) ?_
  intro answers answers_within
  apply yields_ok
  apply selected_within _ _ _ ?_ (List.forall_mem_append.mpr ⟨calls_within, answers_within⟩)
  split
  · exact fun _ never => (List.not_mem_nil never).elim
  · exact List.forall_mem_singleton.mpr (lit_within _)

theorem atem_turn_within (tools : Option Jv) (allowUser : Bool) (onlyTool : Option Bytes)
    (finalSchema : Option Jv) (start : AtemTurnStart) :
    Yields (Snode.Within (schemaLevels + 5))
      (schemaCompileAtemTurn tools allowUser onlyTool finalSchema start) := by
  have turn := atem_turn_prefix_within tools allowUser onlyTool finalSchema
  cases start with
  | direct => exact turn _
  | afterReasoning => exact turn _
  | either =>
      refine yields_bind (turn _) ?_
      intro direct direct_within
      refine yields_bind (turn _) ?_
      intro after after_within
      exact yields_ok (either_within _ direct_within after_within)

theorem atem_parallel_within (tools : Option Jv) (onlyTool : Option Bytes) :
    Yields (Snode.Within (schemaLevels + 6)) (schemaCompileAtemParallel tools onlyTool) := by
  unfold schemaCompileAtemParallel
  refine yields_bind (atem_turn_within _ _ _ _ _) ?_
  intro first first_within
  refine yields_bind (atem_turn_within _ _ _ _ _) ?_
  intro second second_within
  exact yields_ok (triple_within _ first_within (lit_within _) second_within)

theorem muse_user_payload_within (schema : Option Jv) :
    Yields (Snode.Within (schemaLevels + 1)) (schemaCompileMuseUserPayload schema) := by
  unfold schemaCompileMuseUserPayload
  refine yields_bind (schema_compile_frames _) ?_
  intro direct direct_within
  refine yields_bind (schema_compile_frames _) ?_
  intro after after_within
  apply yields_ok
  exact either_within _ (pair_within _ (lit_within _) direct_within)
    (pair_within _ (lit_within _) after_within)

/-! ## Harmony -/

theorem harmony_arguments_within (tool : Jv) :
    Yields (Snode.Within (schemaLevels + 1)) (harmonyArguments tool) := by
  unfold harmonyArguments
  dsimp only
  split
  · exact yields_map (schema_compile_frames _) fun _ within => pair_within _ (lit_within _) within
  · exact yields_ok (pair_within _ (lit_within _) (lit_within _))

theorem harmony_call_select_within (tools : List Jv) (onlyTool lead : Option Bytes) :
    Yields (Snode.Within (schemaLevels + 2)) (harmonyCallSelect tools onlyTool lead) := by
  unfold harmonyCallSelect
  dsimp only
  refine yields_then ?_
  intro _
  refine yields_bind (yields_map_m
    (P := fun branch : Bytes × Snode => branch.2.Within (schemaLevels + 1)) fun tool _ => ?_) ?_
  · exact yields_map (harmony_arguments_within tool) fun _ within => within
  · intro branches within
    apply yields_ok
    apply selected_within _ _ _ ?_ within.1
    cases lead with
    | none => exact fun _ never => (List.not_mem_nil never).elim
    | some lead => exact List.forall_mem_singleton.mpr (lit_within _)

theorem harmony_finals_within (allowFinal : Bool) (finalSchema : Option Jv) :
    Yields (fun finals => ∀ branch ∈ finals, branch.2.Within (schemaLevels + 1))
      (harmonyFinals allowFinal finalSchema) := by
  unfold harmonyFinals
  refine yields_ite _ (fun _ => ?_) fun _ => yields_ok fun _ never => (List.not_mem_nil never).elim
  refine yields_map (body_within _ _) ?_
  intro body within
  exact List.forall_mem_singleton.mpr (pair_within _ (lit_within _) within)

/-- Branches that keep to fewer frames. -/
theorem branches_weaken {k' : Nat} (more : k ≤ k')
    (all : ∀ branch ∈ branches, branch.2.Within k) : ∀ branch ∈ branches, branch.2.Within k' :=
  fun branch member => (all branch member).weaken more

theorem harmony_after_reasoning_within (tools : List Jv) (onlyTool : Option Bytes)
    (allowFinal : Bool) (finalSchema : Option Jv) :
    Yields (Snode.Within (schemaLevels + 3))
      (harmonyAfterReasoning tools onlyTool allowFinal finalSchema) := by
  unfold harmonyAfterReasoning
  refine yields_bind (harmony_call_select_within _ _ _) ?_
  intro call call_within
  refine yields_bind (harmony_finals_within _ _) ?_
  intro finals finals_within
  apply yields_ok
  apply selected_within [_, _]
  · exact List.forall_mem_cons.mpr
      ⟨lit_within _, List.forall_mem_singleton.mpr (raw_within _ _)⟩
  · exact List.forall_mem_cons.mpr ⟨call_within, branches_weaken (Nat.le_succ _) finals_within⟩

theorem harmony_full_call_within (tools : List Jv) (onlyTool : Option Bytes) :
    Yields (Snode.Within (schemaLevels + 3)) (harmonyFullCall tools onlyTool) := by
  unfold harmonyFullCall
  refine yields_bind (harmony_call_select_within _ _ _) ?_
  intro call within
  exact yields_ok (pair_within _ (lit_within _) within)

theorem harmony_commentary_tail_within (tools : List Jv) (onlyTool : Option Bytes)
    (allowPreamble : Bool) :
    Yields (Snode.Within (schemaLevels + 4))
      (harmonyCommentaryTail tools onlyTool allowPreamble) := by
  unfold harmonyCommentaryTail
  refine yields_bind (harmony_call_select_within _ _ _) ?_
  intro direct direct_within
  have more := direct_within.weaken (Nat.add_le_add_left (by decide : 2 ≤ 4) schemaLevels)
  refine yields_ite _ (fun _ => ?_) fun _ => yields_ok more
  refine yields_bind (harmony_full_call_within _ _) ?_
  intro call call_within
  exact yields_ok (either_within _ more
    (triple_within _ (lit_within _) (raw_within _ _) call_within))

theorem harmony_analysis_within (tools : List Jv) (onlyTool : Option Bytes) (allowFinal : Bool)
    (finalSchema : Option Jv) (allowReasoning : Bool) :
    Yields (fun analysis => ∀ branch ∈ analysis, branch.2.Within (schemaLevels + 4))
      (harmonyAnalysis tools onlyTool allowFinal finalSchema allowReasoning) := by
  unfold harmonyAnalysis
  refine yields_ite _ (fun _ => ?_) fun _ => yields_ok fun _ never => (List.not_mem_nil never).elim
  refine yields_map (harmony_after_reasoning_within _ _ _ _) ?_
  intro n within
  exact List.forall_mem_singleton.mpr (within.weaken (Nat.le_succ _))

theorem harmony_channel_select_within (tools : List Jv) (onlyTool : Option Bytes)
    (allowFinal : Bool) (finalSchema : Option Jv) (allowReasoning : Bool) :
    Yields (Snode.Within (schemaLevels + 5))
      (harmonyChannelSelect tools onlyTool allowFinal finalSchema allowReasoning) := by
  unfold harmonyChannelSelect
  refine yields_bind (harmony_analysis_within _ _ _ _ _) ?_
  intro analysis analysis_within
  refine yields_bind (harmony_commentary_tail_within _ _ _) ?_
  intro commentary commentary_within
  refine yields_bind (harmony_finals_within _ _) ?_
  intro finals finals_within
  apply yields_ok
  apply selected_within [_] _ _ (List.forall_mem_singleton.mpr (lit_within _))
  have behind := branches_weaken (Nat.add_le_add_left (by decide : 1 ≤ 4) schemaLevels)
    finals_within
  exact List.forall_mem_append.mpr
    ⟨analysis_within, List.forall_mem_cons.mpr ⟨commentary_within, behind⟩⟩

theorem harmony_turn_within (tools : Option Jv) (allowFinal : Bool) (onlyTool : Option Bytes)
    (finalSchema : Option Jv) (allowReasoning : Bool) :
    Yields (Snode.Within (schemaLevels + 5))
      (schemaCompileHarmonyTurn tools allowFinal onlyTool finalSchema allowReasoning) := by
  unfold schemaCompileHarmonyTurn
  refine yields_then ?_
  intro items
  exact harmony_channel_select_within items onlyTool allowFinal finalSchema allowReasoning

/-! ## gemma4 -/

theorem all_within (all : ∀ n ∈ nodes, n.full = true) :
    ∀ n ∈ nodes, n.Within (Snode.maxFrames nodes) :=
  fun n member => ⟨Snode.frames_le_max member, all n member⟩

theorem seq_full (ws : Bool) (some_ : nodes ≠ []) (all : ∀ n ∈ nodes, n.full = true) :
    (Snode.seq nodes ws).full = true := (within_seq ws some_ (all_within all)).full

theorem pair_full {m : Snode} (ws : Bool) (first : n.full = true) (second : m.full = true) :
    (Snode.seq [n, m] ws).full = true :=
  seq_full ws (List.cons_ne_nil _ _)
    (List.forall_mem_cons.mpr ⟨first, List.forall_mem_singleton.mpr second⟩)

theorem either_full {m : Snode} (ws : Bool) (first : n.full = true) (second : m.full = true) :
    (Snode.union [n, m] ws).full = true := by
  rw [Snode.full]
  exact (within_list (all_within
    (List.forall_mem_cons.mpr ⟨first, List.forall_mem_singleton.mpr second⟩))).2

theorem selected_full (pieces : List Snode) (ws rootWs : Bool)
    (before : ∀ n ∈ pieces, n.full = true)
    (all : ∀ branch ∈ branches, branch.2.full = true) :
    (Snode.seq (pieces ++ selection branches ws) rootWs).full = true := by
  apply seq_full _ (List.append_ne_nil_of_right_ne_nil _ (List.cons_ne_nil _ _))
  refine List.forall_mem_append.mpr ⟨before, ?_⟩
  refine List.forall_mem_cons.mpr ⟨rfl, List.forall_mem_singleton.mpr ?_⟩
  rw [Snode.full]
  refine (within_list (all_within ?_)).2
  intro n member
  obtain ⟨branch, among, same⟩ := List.mem_map.mp member
  rw [← same]
  exact all branch among

/-- A compiler with a budget leaves no sequence empty. -/
def Fills (compiled : Slotted) : Prop := Yields (fun result => result.1.full = true) compiled

theorem element_full (i : Nat) {value tail : Snode} (here : value.full = true)
    (behind : tail.full = true) : (g4Element i value tail).full = true := by
  apply seq_full _ (List.append_ne_nil_of_right_ne_nil _ (List.cons_ne_nil _ _))
  refine List.forall_mem_append.mpr ⟨?_, List.forall_mem_cons.mpr
    ⟨here, List.forall_mem_singleton.mpr behind⟩⟩
  split
  · exact List.forall_mem_singleton.mpr rfl
  · exact fun _ never => (List.not_mem_nil never).elim

theorem closable_full (closable : Bool) (full : n.full = true) :
    (g4Closable closable n).full = true := by
  unfold g4Closable
  split
  · exact either_full _ rfl full
  · exact full

theorem g4_elements_full {value : Nat → Slotted} (values : ∀ budget, Fills (value budget))
    (least most : Nat) {tail : Snode} (closed : tail.full = true) (budget : Nat) :
    Fills (g4Elements value least most tail budget) := by
  induction most generalizing tail budget with
  | zero => exact yields_ok closed
  | succ i induction =>
      unfold g4Elements
      refine yields_bind (values budget) ?_
      intro element full
      exact induction (closable_full _ (element_full _ full closed)) element.2

variable {value : Jv → Bytes → Nat → Slotted}

theorem g4_array_full (values : ∀ schema what budget, Fills (value schema what budget))
    (schema : Jv) (what : Bytes) (budget : Nat) : Fills (g4Array value schema what budget) := by
  unfold g4Array
  split
  · exact yields_error _
  · refine yields_bind (g4_elements_full (values _ what) _ _ rfl budget) ?_
    intro elements full
    exact yields_ok (pair_full _ rfl full)

theorem element_frames (i : Nat) (value tail : Snode) :
    (g4Element i value tail).frames = max value.frames tail.frames + 1 := by
  have one := value.frames_pos
  unfold g4Element
  rw [Snode.frames]
  split
  · rw [List.singleton_append, Snode.maxFrames, Snode.maxFrames, Snode.maxFrames, Snode.maxFrames]
    rw [show (atemLit [comma]).frames = 1 from rfl]
    omega
  · rw [List.nil_append, Snode.maxFrames, Snode.maxFrames, Snode.maxFrames, Nat.max_zero]

theorem closable_frames (closable : Bool) (n : Snode) :
    (g4Closable closable n).frames = n.frames := by
  have one := n.frames_pos
  unfold g4Closable
  split
  · rw [Snode.frames, Snode.maxFrames, Snode.maxFrames, Snode.maxFrames, Nat.max_zero]
    rw [show (atemLit [rbracket]).frames = 1 from rfl]
    omega
  · rfl

/-- Every element of an array takes a frame, above those of its value. -/
theorem g4_elements_frames {element : Nat → Slotted} {depth : Nat}
    (elements : ∀ budget, Yields (fun result => result.1.frames = depth) (element budget))
    (least most : Nat) (tail : Snode) (budget : Nat) :
    Yields (fun result => result.1.frames = if most = 0 then tail.frames
      else max depth tail.frames + most) (g4Elements element least most tail budget) := by
  induction most generalizing tail budget with
  | zero => exact yields_ok (if_pos rfl).symm
  | succ i induction =>
      unfold g4Elements
      refine yields_bind (elements budget) ?_
      intro value frames
      refine (induction _ value.2).weaken ?_
      intro result counted
      rw [counted, closable_frames, element_frames, frames, if_neg (Nat.succ_ne_zero i)]
      split <;> omega

/-- An array of one or more elements. -/
theorem g4_array_frames {depth : Nat} {schema : Jv} (some_ : 0 < g4MaxOf schema)
    (values : ∀ items what budget, Yields (fun result => result.1.frames = depth)
      (value items what budget)) (what : Bytes) (budget : Nat) :
    Yields (fun result => result.1.frames = max depth 1 + g4MaxOf schema + 1)
      (g4Array value schema what budget) := by
  unfold g4Array
  split
  · exact yields_error _
  · refine yields_bind (g4_elements_frames (values _ what) _ _ _ budget) ?_
    intro elements frames
    rw [if_neg some_.ne', show (atemLit [rbracket]).frames = 1 from rfl] at frames
    apply yields_ok
    rw [Snode.frames, Snode.maxFrames, Snode.maxFrames, Snode.maxFrames, frames]
    rw [show (atemLit [lbracket]).frames = 1 from rfl]
    omega

theorem g4_members_full (values : ∀ schema what budget, Fills (value schema what budget))
    (what : Bytes) (members : List (Bytes × Jv)) (budget : Nat) :
    Yields (fun result => ∀ p ∈ result.1, p.value.full = true)
      (g4Members value what members budget) := by
  induction members generalizing budget with
  | nil => exact yields_ok fun _ never => (List.not_mem_nil never).elim
  | cons member rest induction =>
      unfold g4Members
      refine yields_bind (values _ _ _) ?_
      intro node full
      refine yields_bind (induction node.2) ?_
      intro later all
      exact yields_ok (List.forall_mem_cons.mpr ⟨full, all⟩)

theorem g4_object_full (values : ∀ schema what budget, Fills (value schema what budget))
    (schema : Jv) (what : Bytes) (budget : Nat) : Fills (g4Object value schema what budget) := by
  unfold g4Object
  split
  · exact yields_error _
  · dsimp only
    refine yields_then ?_
    intro _
    refine yields_bind (g4_members_full values _ _ _) ?_
    intro members all
    refine yields_then ?_
    intro flags
    apply yields_ok
    apply pair_full _ rfl
    rw [Snode.full, (Snode.member_values _).2.2]
    refine (within_list (all_within ?_)).2
    intro n member
    obtain ⟨p, declared, same⟩ := List.mem_map.mp member
    rw [← same]
    exact flagged_values (P := fun n => n.full = true) flags all p declared

theorem g4_string_full (schema : Jv) (what : Bytes) :
    Yields (fun n => n.full = true) (g4String schema what) := by
  unfold g4String
  dsimp only
  refine yields_ite _ (fun _ => ?_) fun _ => yields_ok (pair_full _ rfl ?_)
  · exact yields_ite _ (fun _ => yields_ok rfl) fun _ => yields_error _
  · split <;> rfl

theorem g4_value_full (left : Nat) :
    ∀ schema what budget, Fills (g4Value left schema what budget) := by
  induction left with
  | zero => exact fun _ _ _ => yields_error _
  | succ left induction =>
      intro schema what budget
      cases budget with
      | zero => exact yields_error _
      | succ budget =>
          unfold g4Value
          split
          · exact yields_error _
          · dsimp only
            have text := g4_string_full schema what
            refine yields_ite _ (fun _ => yields_map text fun _ full => full) fun _ => ?_
            refine yields_ite _ (fun _ => yields_ok rfl) fun _ => ?_
            refine yields_ite _ (fun _ => yields_ok rfl) fun _ => ?_
            refine yields_ite _ (fun _ => ?_) fun _ => ?_
            · exact yields_map (schema_compile_frames _) fun _ within => within.full
            · refine yields_ite _ (fun _ => g4_array_full induction _ _ _) fun _ => ?_
              exact yields_ite _ (fun _ => g4_object_full induction _ _ _) fun _ => yields_error _

theorem g4_call_tail_full (tool : Jv) (budget : Nat) : Fills (g4CallTail tool budget) := by
  unfold g4CallTail
  dsimp only
  refine yields_then ?_
  intro _
  refine yields_bind (P := fun result => result.1.full = true) ?_ ?_
  · exact yields_ite _ (fun _ => g4_object_full (g4_value_full _) _ _ _) fun _ => yields_ok rfl
  · intro args full
    exact yields_ok (pair_full _ full rfl)

theorem g4_branches_full (onlyTool : Option Bytes) (tools : List (Jv × Nat)) (budget : Nat) :
    Yields (fun result => ∀ branch ∈ result.1, branch.2.full = true)
      (g4Branches onlyTool tools budget) := by
  induction tools generalizing budget with
  | nil => exact yields_ok fun _ never => (List.not_mem_nil never).elim
  | cons tool rest induction =>
      obtain ⟨tool, i⟩ := tool
      unfold g4Branches
      dsimp only
      split
      · exact yields_error _
      · refine yields_ite _ (fun _ => yields_error _) fun _ => ?_
        refine yields_ite _ (fun _ => ?_) fun _ => induction budget
        refine yields_bind (g4_call_tail_full _ _) ?_
        intro tail full
        refine yields_bind (induction tail.2) ?_
        intro later all
        exact yields_ok (List.forall_mem_cons.mpr ⟨full, all⟩)

theorem g4_call_full (tools : List Jv) (onlyTool : Option Bytes) (lead : Bool) (budget : Nat) :
    Fills (g4Call tools onlyTool lead budget) := by
  unfold g4Call
  refine yields_then ?_
  intro _
  refine yields_bind (g4_branches_full _ _ _) ?_
  intro branches all
  apply yields_ok
  apply selected_full _ _ _ ?_ all
  split
  · exact List.forall_mem_singleton.mpr rfl
  · exact fun _ never => (List.not_mem_nil never).elim

theorem g4_answered_full {call : Snode} (full : call.full = true) (allowFinal : Bool)
    (finalSchema : Option Jv) :
    Yields (fun n => n.full = true) (g4Answered call allowFinal finalSchema) := by
  unfold g4Answered
  refine yields_ite _ (fun _ => ?_) fun _ => yields_ok full
  exact yields_map (body_within _ _) fun _ within => either_full _ full within.full

theorem gemma4_turn_full (tools : Option Jv) (allowFinal : Bool) (onlyTool : Option Bytes)
    (finalSchema : Option Jv) (allowReasoning primedReasoning : Bool) :
    Yields (fun n => n.full = true) (schemaCompileGemma4Turn tools allowFinal onlyTool finalSchema
      allowReasoning primedReasoning) := by
  unfold schemaCompileGemma4Turn g4Body
  refine yields_then ?_
  intro items
  refine yields_bind (P := fun result => result.1.full = true) ?_ ?_
  · refine yields_bind (g4_call_full _ _ _ _) ?_
    intro call full
    refine yields_bind (g4_answered_full full _ _) ?_
    intro body full
    exact yields_ok full
  · intro body full
    have thought : (g4Thought body.1).full = true := pair_full _ rfl full
    refine yields_ite _ (fun _ => yields_ok thought) fun _ => ?_
    refine yields_ite _ (fun _ => yields_ok full) fun _ => ?_
    refine yields_bind (g4_call_full _ _ _ _) ?_
    intro call call_full
    apply g4_answered_full
    exact selected_full [] _ _ (fun _ never => (List.not_mem_nil never).elim)
      (List.forall_mem_cons.mpr ⟨thought, List.forall_mem_singleton.mpr call_full⟩)

theorem gemma4_parallel_full (tools : Jv) (onlyTool : Option Bytes) :
    Yields (fun n => n.full = true) (schemaCompileGemma4Parallel tools onlyTool) := by
  unfold schemaCompileGemma4Parallel
  refine yields_bind (g4_call_full _ _ _ _) ?_
  intro first first_full
  refine yields_bind (g4_call_full _ _ _ _) ?_
  intro second second_full
  exact yields_ok (pair_full _ first_full second_full)

/-! ## What refuses a byte -/

theorem round_calls_same (calls : Nat) (v : Sval) (c : UInt8)
    (enough : roundCalls calls v c ≠ .error .calls) :
    (roundCalls calls v c).toOption = svalRound feedByte v c := by
  have first := feed_calls_same calls v c
  unfold roundCalls at enough ⊢
  unfold svalRound
  cases taken : feedCalls calls v c with
  | error refusal =>
      rw [taken] at enough first
      rw [← first fun few => enough (by rw [Except.error.inj few])]
      rfl
  | ok result =>
      rw [taken] at enough first
      rw [← first (by intro never; cases never)]
      obtain ⟨w, again⟩ := result
      cases again with
      | false => rfl
      | true =>
          have second := feed_calls_same calls w c
          dsimp only at enough ⊢
          cases twice : feedCalls calls w c with
          | error refusal =>
              rw [twice] at enough second
              rw [Except.toOption, Option.bind_some, if_pos rfl,
                ← second fun few => enough (by rw [Except.error.inj few])]
              rfl
          | ok result =>
              rw [twice] at second
              rw [Except.toOption, Option.bind_some, if_pos rfl,
                ← second (by intro never; cases never)]
              obtain ⟨x, again⟩ := result
              cases again <;> rfl

theorem sval_feed_calls_same (root : Snode) (calls : Nat) (s : Bytes) (v : Sval)
    (enough : svalFeedCalls calls s v ≠ .error .calls) :
    (svalFeedCalls calls s v).toOption = (schemaMachine root).feed v s := by
  induction s generalizing v with
  | nil => rfl
  | cons c s induction =>
      have round := round_calls_same calls v c
      rw [Generation.Machine.feed_cons]
      unfold svalFeedCalls at enough ⊢
      cases taken : roundCalls calls v c with
      | error refusal =>
          rw [taken] at enough round
          change _ = (svalRound feedByte v c).bind _
          rw [← round fun few => enough (by rw [Except.error.inj few])]
          rfl
      | ok w =>
          rw [taken] at enough round
          change _ = (svalRound feedByte v c).bind _
          rw [← round (by intro never; cases never)]
          exact induction w enough

/-- `schema_compile` and the turns of muse and Harmony. -/
inductive Ordinary : Snode → Prop
  | schema {s : Option Jv} {n : Snode} (compiled : schemaCompile s = .ok n) : Ordinary n
  | atemTools {tools : Option Jv} {n : Snode} (compiled : schemaCompileAtemTools tools = .ok n) :
      Ordinary n
  | atemTurn {tools : Option Jv} {allowUser : Bool} {onlyTool : Option Bytes}
      {finalSchema : Option Jv} {start : AtemTurnStart} {n : Snode}
      (compiled : schemaCompileAtemTurn tools allowUser onlyTool finalSchema start = .ok n) :
      Ordinary n
  | atemParallel {tools : Option Jv} {onlyTool : Option Bytes} {n : Snode}
      (compiled : schemaCompileAtemParallel tools onlyTool = .ok n) : Ordinary n
  | museUserPayload {s : Option Jv} {n : Snode}
      (compiled : schemaCompileMuseUserPayload s = .ok n) : Ordinary n
  | harmonyTurn {tools : Option Jv} {allowFinal : Bool} {onlyTool : Option Bytes}
      {finalSchema : Option Jv} {allowReasoning : Bool} {n : Snode}
      (compiled : schemaCompileHarmonyTurn tools allowFinal onlyTool finalSchema allowReasoning =
        .ok n) : Ordinary n

/-- The turns of gemma4. -/
inductive Gemma : Snode → Prop
  | turn {tools : Option Jv} {allowFinal : Bool} {onlyTool : Option Bytes} {finalSchema : Option Jv}
      {allowReasoning primedReasoning : Bool} {n : Snode}
      (compiled : schemaCompileGemma4Turn tools allowFinal onlyTool finalSchema allowReasoning
        primedReasoning = .ok n) : Gemma n
  | parallel {tools : Jv} {onlyTool : Option Bytes} {n : Snode}
      (compiled : schemaCompileGemma4Parallel tools onlyTool = .ok n) : Gemma n

theorem ordinary_within {root : Snode} (ordinary : Ordinary root) :
    root.Within (schemaLevels + 6) := by
  have more : ∀ {extra : Nat}, root.Within (schemaLevels + extra) → extra ≤ 6 →
      root.Within (schemaLevels + 6) := fun within few =>
    within.weaken (Nat.add_le_add_left few schemaLevels)
  cases ordinary with
  | schema compiled => exact (schema_compile_frames _ _ compiled).weaken (Nat.le_add_right _ _)
  | atemTools compiled => exact more (atem_tools_within _ _ compiled) (by decide)
  | atemTurn compiled => exact more (atem_turn_within _ _ _ _ _ _ compiled) (by decide)
  | atemParallel compiled => exact more (atem_parallel_within _ _ _ compiled) le_rfl
  | museUserPayload compiled => exact more (muse_user_payload_within _ _ compiled) (by decide)
  | harmonyTurn compiled => exact more (harmony_turn_within _ _ _ _ _ _ compiled) (by decide)

theorem gemma_full {root : Snode} (gemma : Gemma root) : root.full = true := by
  cases gemma with
  | turn compiled => exact gemma4_turn_full _ _ _ _ _ _ _ compiled
  | parallel compiled => exact gemma4_parallel_full _ _ _ compiled

/-- With as many calls of `feed_byte` in one another as the tree admits, whatever bytes come: the
validator does what `sval_feed` does, and what refuses a byte is the grammar, not a full stack,
nor a call too many, nor a byte handed back twice. -/
def GrammarRefuses (root : Snode) : Prop :=
  ∀ s, (svalFeedCalls (2 * root.height) s (svalInit root)).toOption =
      (schemaMachine root).feed (svalInit root) s ∧
    ∀ refusal, svalFeedCalls (2 * root.height) s (svalInit root) = .error refusal →
      refusal = .grammar

/-- A compiled tree whose frames fit the stack, as those of schemas and of the turns of muse and
Harmony do, refuses a byte for its grammar only. -/
theorem grammar_alone_refuses {root : Snode} (compiled : Ordinary root ∨ Gemma root)
    (room : Gemma root → root.frames ≤ stackLimit) : GrammarRefuses root := by
  have fits : root.full = true ∧ root.frames ≤ stackLimit := by
    cases compiled with
    | inl ordinary =>
        have within := ordinary_within ordinary
        exact ⟨within.full, within.frames.trans (by decide)⟩
    | inr gemma => exact ⟨gemma_full gemma, room gemma⟩
  intro s
  have answer := sval_feed_calls_fine fits.1 fits.2 s
  constructor
  · apply sval_feed_calls_same
    intro few
    rw [few] at answer
    cases answer with
    | inl refused => cases refused
    | inr taken => obtain ⟨v, taken⟩ := taken; cases taken
  · intro refusal refused
    rw [refused] at answer
    cases answer with
    | inl grammar => exact Except.error.inj grammar
    | inr taken => obtain ⟨v, taken⟩ := taken; cases taken

/-! ### Arrays in arrays -/

/-- A tool `f` with a parameter `x`: integers in so many arrays. -/
def integersIn : Nat → Jv
  | 0 => .obj [bytesOf "type"] [.str (bytesOf "integer")]
  | levels + 1 =>
      .obj [bytesOf "type", bytesOf "items"] [.str (bytesOf "array"), integersIn levels]

def arrayTool (levels : Nat) : Jv :=
  let params : Jv := .obj [bytesOf "type", bytesOf "properties"]
    [.str (bytesOf "object"), .obj [bytesOf "x"] [integersIn levels]]
  .arr [.obj [bytesOf "type", bytesOf "function"] [.str (bytesOf "function"),
    .obj [bytesOf "name", bytesOf "parameters"] [.str (bytesOf "f"), params]]]

def arrayTurn (levels : Nat) : Compiled Snode :=
  schemaCompileGemma4Turn (some (arrayTool levels)) false none none false false

def arrayRoot (levels : Nat) : Snode := (arrayTurn levels).toOption.getD .null

theorem array_root_gemma {levels : Nat} (compiles : (arrayTurn levels).toOption.isSome = true) :
    Gemma (arrayRoot levels) := by
  have same : arrayTurn levels = .ok (arrayRoot levels) := by
    unfold arrayRoot
    cases turn : arrayTurn levels with
    | error message =>
        rw [turn] at compiles
        cases compiles
    | ok root => rfl
  exact Gemma.turn same

/-- 23 empty rows, and 17 numbers of the last one with a comma behind them. -/
def longRows : Bytes :=
  bytesOf "<|tool_call>call:f\x7bx:[" ++ (List.replicate 23 (bytesOf "[],")).flatten ++
    lbracket :: (List.replicate 17 (bytesOf "1,")).flatten

def refusalOf : Except Refusal Sval → Option Refusal
  | .error refusal => some refusal
  | .ok _ => none

theorem long_rows_refused :
    refusalOf (svalFeedCalls (2 * (arrayRoot 2).height) longRows (svalInit (arrayRoot 2))) =
      some .stack := by
  decide +kernel

theorem nested_arrays_outgrow_the_stack :
    ¬∀ root : Snode, Ordinary root ∨ Gemma root → GrammarRefuses root := by
  intro claim
  have alone := claim (arrayRoot 2) (Or.inr (array_root_gemma (by decide +kernel)))
  have refused := long_rows_refused
  cases run : svalFeedCalls (2 * (arrayRoot 2).height) longRows (svalInit (arrayRoot 2)) with
  | error refusal =>
      rw [run, (alone longRows).2 refusal run] at refused
      cases refused
  | ok v =>
      rw [run] at refused
      cases refused

theorem array_calls_read : GrammarRefuses (arrayRoot 1) :=
  grammar_alone_refuses (Or.inr (array_root_gemma (by decide +kernel))) fun _ => by decide +kernel

end GridcoreRunner.Schema
