import GridcoreRunner.Schema.Reentry

/-!
# Frames, calls and bytes read again

A tree bounds the frames that reading a value of it takes and the calls that `feed_byte` makes
in one another. Where the frames fit the stack and no sequence is empty, a byte is refused
by the grammar alone.
-/

namespace GridcoreRunner.Schema

set_option autoImplicit false

open GridcoreRunner.Json

namespace Snode

/-! ## What a tree asks for -/

mutual

/-- The frames that stand on one another while a value is read. A union and a conditional
make room for the alternative they are replaced by. -/
def frames : Snode → Nat
  | .obj props => memberFrames props + 1
  | .map items => items.frames + 1
  | .arr items _ _ => items.frames + 1
  | .union alts _ => max 1 (maxFrames alts)
  | .cond alts _ => max 1 (maxFrames alts)
  | .seq props _ => maxFrames props + 1
  | .members props _ => memberFrames props + 1
  | _ => 1

def maxFrames : List Snode → Nat
  | [] => 0
  | n :: rest => max n.frames (maxFrames rest)

def memberFrames : List (Member Snode) → Nat
  | [] => 0
  | ⟨_, _, _, value⟩ :: rest => max value.frames (memberFrames rest)

end

mutual

def height : Snode → Nat
  | .obj props => memberHeight props + 1
  | .map items => items.height + 1
  | .arr items _ _ => items.height + 1
  | .union alts _ => maxHeight alts + 1
  | .cond alts _ => maxHeight alts + 1
  | .seq props _ => maxHeight props + 1
  | .members props _ => memberHeight props + 1
  | _ => 1

def maxHeight : List Snode → Nat
  | [] => 0
  | n :: rest => max n.height (maxHeight rest)

def memberHeight : List (Member Snode) → Nat
  | [] => 0
  | ⟨_, _, _, value⟩ :: rest => max value.height (memberHeight rest)

end

mutual

/-- No sequence of the tree is empty. -/
def full : Snode → Bool
  | .obj props => membersFull props
  | .map items => items.full
  | .arr items _ _ => items.full
  | .union alts _ => allFull alts
  | .cond alts _ => allFull alts
  | .seq props _ => !props.isEmpty && allFull props
  | .members props _ => membersFull props
  | _ => true

def allFull : List Snode → Bool
  | [] => true
  | n :: rest => n.full && allFull rest

def membersFull : List (Member Snode) → Bool
  | [] => true
  | ⟨_, _, _, value⟩ :: rest => value.full && membersFull rest

end

attribute [grind =] frames maxFrames memberFrames height maxHeight memberHeight full allFull
  membersFull

/-- The nodes a frame of this node pushes. -/
def parts : Snode → List Snode
  | .obj props => props.map Member.value
  | .map items => [items]
  | .arr items _ _ => [items]
  | .seq props _ => props
  | .members props _ => props.map Member.value
  | _ => []

/-- The nodes a frame of this node is replaced by. -/
def choices : Snode → List Snode
  | .union alts _ => alts
  | .cond alts _ => alts
  | _ => []

/-- A node that frames of other nodes stand on. -/
def holds : Snode → Bool
  | .obj _ => true
  | .map _ => true
  | .arr _ _ _ => true
  | .seq _ _ => true
  | .members _ _ => true
  | _ => false

/-- The tree below `n` asks for no more than `n`. -/
structure Below (m n : Snode) : Prop where
  height : m.height < n.height
  full : n.full = true → m.full = true

theorem frames_le_max {n : Snode} {nodes : List Snode} (member : n ∈ nodes) :
    n.frames ≤ maxFrames nodes := by
  induction nodes with
  | nil => cases member
  | cons m rest induction =>
      rw [maxFrames]
      cases member with
      | head => exact Nat.le_max_left _ _
      | tail _ later => exact (induction later).trans (Nat.le_max_right _ _)

theorem below_list {n : Snode} {nodes : List Snode} (member : n ∈ nodes) :
    n.height ≤ maxHeight nodes ∧ (allFull nodes = true → n.full = true) := by
  induction nodes with
  | nil => cases member
  | cons m rest induction =>
      rw [maxHeight, allFull, Bool.and_eq_true_iff]
      cases member with
      | head => exact ⟨Nat.le_max_left _ _, fun all => all.1⟩
      | tail _ later =>
          have rest := induction later
          exact ⟨rest.1.trans (Nat.le_max_right _ _), fun all => rest.2 all.2⟩

/-- The values of members, as a list of nodes. -/
theorem member_values (props : List (Member Snode)) :
    memberFrames props = maxFrames (props.map Member.value) ∧
      memberHeight props = maxHeight (props.map Member.value) ∧
      membersFull props = allFull (props.map Member.value) := by
  induction props with
  | nil => exact ⟨rfl, rfl, rfl⟩
  | cons p rest induction =>
      obtain ⟨frames, height, full⟩ := induction
      rw [List.map_cons, memberFrames, memberHeight, membersFull, frames, height, full]
      exact ⟨rfl, rfl, rfl⟩

theorem frames_part {m n : Snode} (part : m ∈ n.parts) : m.frames < n.frames := by
  cases n with
  | obj props =>
      rw [frames, (member_values props).1]
      exact Nat.lt_succ_of_le (frames_le_max part)
  | members props sentinel =>
      rw [frames, (member_values props).1]
      exact Nat.lt_succ_of_le (frames_le_max part)
  | map items =>
      rw [List.mem_singleton.mp part, frames]
      exact Nat.lt_succ_self _
  | arr items minItems maxItems =>
      rw [List.mem_singleton.mp part, frames]
      exact Nat.lt_succ_self _
  | seq props ws =>
      rw [frames]
      exact Nat.lt_succ_of_le (frames_le_max part)
  | _ => cases part

theorem frames_choice {m n : Snode} (choice : m ∈ n.choices) : m.frames ≤ n.frames := by
  cases n with
  | union alts ws =>
      rw [frames]
      exact (frames_le_max choice).trans (Nat.le_max_right _ _)
  | cond alts ws =>
      rw [frames]
      exact (frames_le_max choice).trans (Nat.le_max_right _ _)
  | _ => cases choice

theorem below_of {m n : Snode} {nodes : List Snode} (member : m ∈ nodes)
    (height : n.height = maxHeight nodes + 1) (full : n.full = true → allFull nodes = true) :
    Below m n := by
  have list := below_list member
  constructor
  · rw [height]
    exact Nat.lt_succ_of_le list.1
  · exact fun all => list.2 (full all)

theorem below_part {m n : Snode} (part : m ∈ n.parts) : Below m n := by
  cases n with
  | obj props =>
      have values := (member_values props).2
      exact below_of part (by rw [height, values.1]; rfl) (by rw [full, values.2]; exact id)
  | members props sentinel =>
      have values := (member_values props).2
      exact below_of part (by rw [height, values.1]; rfl) (by rw [full, values.2]; exact id)
  | map items =>
      rw [List.mem_singleton.mp part]
      exact ⟨Nat.lt_succ_self _, id⟩
  | arr items minItems maxItems =>
      rw [List.mem_singleton.mp part]
      exact ⟨Nat.lt_succ_self _, id⟩
  | seq props ws =>
      exact below_of part rfl (by rw [full, Bool.and_eq_true_iff]; exact And.right)
  | _ => cases part

theorem below_choice {m n : Snode} (choice : m ∈ n.choices) : Below m n := by
  cases n with
  | union alts ws => exact below_of choice rfl (by rw [full]; exact id)
  | cond alts ws => exact below_of choice rfl (by rw [full]; exact id)
  | _ => cases choice

theorem frames_pos (n : Snode) : 0 < n.frames := by
  cases n <;> simp [frames]

theorem height_pos (n : Snode) : 0 < n.height := by
  cases n <;> simp [height]

end Snode

/-! ## The stack -/

def Sval.nodes (v : Sval) : List Snode := v.stack.map Sframe.node

/-- A stack that keeps to what the tree of the root asks for. -/
inductive Nested (root : Snode) : List Snode → Prop
  | nil : Nested root []
  | cons {n : Snode} {below : List Snode} (frames : below.length + n.frames ≤ root.frames)
      (height : n.height ≤ root.height) (full : n.full = true) (holds : ∀ m ∈ below, m.holds = true)
      (rest : Nested root below) : Nested root (n :: below)

section Nested

variable {root m n : Snode} {nodes below : List Snode}

theorem nested_root (full : root.full = true) : Nested root [root] := by
  apply Nested.cons
  · rw [List.length_nil, Nat.zero_add]
  · exact Nat.le_refl _
  · exact full
  · intro m never
    cases never
  · exact Nested.nil

theorem Nested.drop (nested : Nested root nodes) (count : Nat) : Nested root (nodes.drop count) := by
  induction count generalizing nodes with
  | zero => exact nested
  | succ count induction =>
      cases nested with
      | nil => exact Nested.nil
      | cons frames height full holds rest => exact induction rest

theorem Nested.below_holds (nested : Nested root (n :: below)) : ∀ m ∈ below, m.holds = true := by
  cases nested with
  | cons frames height full holds rest => exact holds

theorem Nested.height (nested : Nested root (n :: below)) : n.height ≤ root.height := by
  cases nested with
  | cons frames height full holds rest => exact height

theorem Nested.push (nested : Nested root (n :: below)) (part : m ∈ n.parts) :
    Nested root (m :: n :: below) := by
  have whole := nested
  have fewer := Snode.frames_part part
  have lower := Snode.below_part part
  cases nested with
  | cons frames height full holds rest =>
      apply Nested.cons
      · rw [List.length_cons]
        omega
      · exact lower.height.le.trans height
      · exact lower.full full
      · have here : n.holds = true := by cases n <;> first | rfl | cases part
        exact List.forall_mem_cons.mpr ⟨here, holds⟩
      · exact whole

/-- There is room for the frame that is pushed. -/
theorem Nested.room (nested : Nested root (n :: below)) (part : m ∈ n.parts) :
    (n :: below).length < root.frames := by
  have pos := Snode.frames_pos m
  have pushed := nested.push part
  cases pushed with
  | cons frames height full holds rest => omega

theorem Nested.choose (nested : Nested root (n :: below)) (choice : m ∈ n.choices) :
    Nested root (m :: below) := by
  have fewer := Snode.frames_choice choice
  have lower := Snode.below_choice choice
  cases nested with
  | cons frames height full holds rest =>
      apply Nested.cons
      · omega
      · exact lower.height.le.trans height
      · exact lower.full full
      · exact holds
      · exact rest

end Nested

/-! ## The end of a value -/

/-- A frame whose child has ended. -/
def Sframe.Resumed (f : Sframe) : Prop :=
  match f.node with
  | .obj _ => f.phase = .objNext
  | .map _ => f.phase = .objNext
  | .arr _ _ _ => f.phase = .arrNext
  | .seq props _ => f.phase = .seq ∧ f.idx < props.length
  | .members _ _ => f.phase = .memNext ∧ f.alive = [] ∧ f.litPos = 0 ∧ f.sub = 0
  | _ => False

/-- The validator behind the end of a value: the root has ended, or a frame goes on. -/
def Sval.Resumed (v : Sval) : Prop :=
  v.done = true ∨ ∃ f below, v.stack = f :: below ∧ f.Resumed

theorem settle_resumes (lastEnum : Option Nat) (child : Snode) (below : List Sframe)
    (holds : ∀ m ∈ below.map Sframe.node, m.holds = true) :
    (∃ count, (settle lastEnum child below).1.map Sframe.node = (below.map Sframe.node).drop count) ∧
      ((settle lastEnum child below).2 = true ∨
        ∃ f rest, (settle lastEnum child below).1 = f :: rest ∧ f.Resumed) := by
  induction below generalizing child with
  | nil => exact ⟨⟨0, rfl⟩, Or.inl rfl⟩
  | cons f rest induction =>
      rw [List.map_cons] at holds
      have here := holds f.node List.mem_cons_self
      unfold settle
      dsimp only
      cases node : f.node with
      | obj props =>
          exact ⟨⟨0, by simp [node]⟩, Or.inr ⟨_, _, rfl, by simp [Sframe.Resumed]⟩⟩
      | map items =>
          exact ⟨⟨0, by simp [node]⟩, Or.inr ⟨_, _, rfl, by simp [Sframe.Resumed]⟩⟩
      | arr items minItems maxItems =>
          exact ⟨⟨0, by simp [node]⟩, Or.inr ⟨_, _, rfl, by simp [Sframe.Resumed]⟩⟩
      | members props sentinel =>
          exact ⟨⟨0, by simp [node]⟩, Or.inr ⟨_, _, rfl, by simp [Sframe.Resumed]⟩⟩
      | seq props ws =>
          dsimp only
          by_cases spent : props.length ≤ f.idx
          · rw [if_pos spent]
            obtain ⟨⟨count, dropped⟩, resumed⟩ := induction (.seq props ws)
              fun m member => holds m (List.mem_cons_of_mem _ member)
            exact ⟨⟨count + 1, by rw [dropped]; rfl⟩, resumed⟩
          · rw [if_neg spent]
            refine ⟨⟨0, by simp [node]⟩, Or.inr ⟨_, _, rfl, ?_⟩⟩
            simp [Sframe.Resumed, not_le.mp spent]
      | _ =>
          rw [node] at here
          cases here

end GridcoreRunner.Schema
