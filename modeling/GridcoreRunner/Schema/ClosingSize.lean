import Mathlib.Algebra.BigOperators.Group.List.Basic
import Mathlib.Algebra.Group.Action.Defs
import GridcoreRunner.Schema.Closer

/-!
# How long a forced completion is

Each node and each open frame owes a number of bytes that its bounds, literals and keys
fix. A completion writes exactly what its frames owe together.
-/

namespace GridcoreRunner.Schema

set_option autoImplicit false

open GridcoreRunner.Json GridcoreRunner.Buffer Sink

/-- A list of this many values with a comma between any two, without its brackets. -/
def separated (count size : Nat) : Nat := count * size + (count - 1)

mutual

/-- The bytes of the smallest value of a node. -/
def minSize (n : Snode) (depth : Nat) (choice : Option Nat) : Nat :=
  if emitDepth < depth then 4
  else
    match n with
    | .any objectRooted => if objectRooted then 2 else 4
    | .null => 4
    | .bool => 5
    | .num realMin realMax => (text17g (numberFill realMin realMax)).length
    | .int numMin numMax => (Decimal.ofInt (integerMinimalValue numMin numMax)).length
    | .str minItems _ pat => stringMin minItems pat + 2
    | .enum lits _ _ => (lits.headD []).length
    | .obj props => requiredSize props true depth + 2
    | .map _ => 2
    | .arr items minItems _ => separated minItems (minSize items (depth + 1) choice) + 2
    | .union alts _ => if alts.any Snode.isNull then 4 else nthSize alts 0 (depth + 1) choice
    | .cond alts _ => nthSize alts (condChoice choice alts.length) (depth + 1) choice
    | .seq props _ => seqSize props depth choice
    | .members props sentinel => membersSize props true depth choice + sentinel.length
    | .raw sentinel _ => sentinel.length
termination_by structural n

def nthSize (alts : List Snode) (i : Nat) (depth : Nat) (choice : Option Nat) : Nat :=
  match alts, i with
  | [], _ => 0
  | n :: _, 0 => minSize n depth choice
  | _ :: rest, i + 1 => nthSize rest i depth choice
termination_by structural alts

def requiredSize (props : List (Member Snode)) (first : Bool) (depth : Nat) : Nat :=
  match props with
  | [] => 0
  | ⟨key, _, req, value⟩ :: rest =>
      if !req then requiredSize rest first depth
      else
        (if first then 0 else 1) + key.length + 3 + minSize value (depth + 1) (some 0) +
          requiredSize rest false depth
termination_by structural props

def seqSize (props : List Snode) (depth : Nat) (choice : Option Nat) : Nat :=
  match props with
  | [] => 0
  | n :: rest =>
      minSize n (depth + 1) choice + seqSize rest depth (if n.selects then some 0 else choice)
termination_by structural props

def membersSize (props : List (Member Snode)) (first : Bool) (depth : Nat) (choice : Option Nat) :
    Nat :=
  match props with
  | [] => 0
  | ⟨key, nextKey, req, value⟩ :: rest =>
      if !req then membersSize rest first depth choice
      else
        (if first then key else nextKey).length + minSize value (depth + 1) choice +
          membersSize rest false depth choice
termination_by structural props

end

/-! ## A fresh value -/

/-- Values with a comma in front of each but the first. -/
theorem separated_sum (count size : Nat) :
    ((List.range' 0 count).map fun i => (if i = 0 then 0 else 1) + size).sum =
      separated count size := by
  cases count with
  | zero => simp [separated]
  | succ count =>
      have later : ((List.range' 1 count).map fun i => (if i = 0 then 0 else 1) + size) =
          List.replicate count (1 + size) := by
        rw [List.eq_replicate_iff]
        constructor
        · rw [List.length_map, List.length_range']
        · intro x inside
          rcases List.mem_map.mp inside with ⟨i, member, rfl⟩
          have positive : i ≠ 0 := by
            have bounds := List.mem_range'_1.mp member
            omega
          rw [if_neg positive]
      rw [List.range'_succ, List.map_cons, List.sum_cons, if_pos rfl, later, List.sum_replicate,
        separated, smul_eq_mul, Nat.add_mul, Nat.mul_add]
      omega

theorem emit_fill_writes (pat : List PatSeg) (count index : Nat) :
    Writes (Sink.fill (emitFill pat) count index) count := by
  have each : ∀ i, Writes (emitFill pat i) ((fun _ => 1) i) := fun i => writes_put _
  apply (Writes.fill each count index).of_eq
  rw [List.map_const', List.sum_replicate, List.length_range', smul_eq_mul, Nat.mul_one]

mutual

theorem emit_min_writes (n : Snode) (depth : Nat) (choice : Option Nat) :
    Writes (fun q => emitMinChoice n depth choice q) (minSize n depth choice) := by
  unfold emitMinChoice minSize
  split_ifs with deep
  · exact writes_put nullText
  · cases n with
    | any objectRooted =>
        cases objectRooted with
        | true => exact writes_put _
        | false => exact writes_put _
    | null => exact writes_put _
    | bool => exact writes_put _
    | num realMin realMax => exact writes_put _
    | int numMin numMax => exact writes_put _
    | str minItems maxItems pat =>
        have body := emit_fill_writes pat (stringMin minItems pat) 0
        apply (((writes_put [quote]).andThen body).thenPut [quote]).of_eq
        simp only [List.length_singleton]
        omega
    | enum lits selects ws => exact writes_put _
    | obj props =>
        have body := emit_required_writes props true depth
        apply (((writes_put [lbrace]).andThen body).thenPut [rbrace]).of_eq
        simp only [List.length_singleton]
        omega
    | map items => exact writes_put _
    | arr items minItems maxItems =>
        have item := emit_min_writes items (depth + 1) choice
        have each : ∀ i, Writes (fun q : Emitq => emitMinChoice items (depth + 1) choice
            (if i = 0 then q else q.put [comma]))
              ((if i = 0 then 0 else 1) + minSize items (depth + 1) choice) := by
          intro i
          by_cases start : i = 0
          · simp only [if_pos start]
            exact writes_nothing.andThen item
          · simp only [if_neg start]
            exact (writes_put [comma]).andThen item
        have body := Writes.fill each minItems 0
        rw [separated_sum] at body
        apply (((writes_put [lbracket]).andThen body).thenPut [rbracket]).of_eq
        simp only [List.length_singleton]
        omega
    | union alts ws =>
        by_cases nullable : alts.any Snode.isNull = true
        · simp only [if_pos nullable]
          exact writes_put _
        · simp only [if_neg nullable]
          exact emit_nth_writes alts 0 (depth + 1) choice
    | cond alts ws => exact emit_nth_writes alts _ (depth + 1) choice
    | seq props ws => exact emit_seq_writes props depth choice
    | members props sentinel => exact (emit_members_writes props true depth choice).thenPut sentinel
    | raw sentinel maxItems => exact writes_put _
termination_by structural n

theorem emit_nth_writes (alts : List Snode) (i : Nat) (depth : Nat) (choice : Option Nat) :
    Writes (fun q => emitNth alts i depth choice q) (nthSize alts i depth choice) := by
  cases alts with
  | nil =>
      unfold emitNth nthSize
      exact writes_nothing
  | cons n rest =>
      unfold emitNth nthSize
      cases i with
      | zero => exact emit_min_writes n depth choice
      | succ i => exact emit_nth_writes rest i depth choice
termination_by structural alts

theorem emit_required_writes (props : List (Member Snode)) (first : Bool) (depth : Nat) :
    Writes (fun q => emitRequired props first depth q) (requiredSize props first depth) := by
  cases props with
  | nil =>
      unfold emitRequired requiredSize
      exact writes_nothing
  | cons p rest =>
      rcases p with ⟨key, nextKey, req, value⟩
      unfold emitRequired requiredSize
      cases req with
      | false => exact emit_required_writes rest first depth
      | true =>
          have here := emit_min_writes value (depth + 1) (some 0)
          have later := emit_required_writes rest false depth
          apply (((writes_put _).andThen here).andThen later).of_eq
          have front : ((if first then [] else [comma]) ++ quote :: key ++ [quote, colon]).length =
              (if first then 0 else 1) + key.length + 3 := by
            cases first <;> simp [Nat.add_comm, Nat.add_left_comm]
          rw [front]
          rfl
termination_by structural props

theorem emit_seq_writes (props : List Snode) (depth : Nat) (choice : Option Nat) :
    Writes (fun q => emitSeq props depth choice q) (seqSize props depth choice) := by
  cases props with
  | nil =>
      unfold emitSeq seqSize
      exact writes_nothing
  | cons n rest =>
      unfold emitSeq seqSize
      exact (emit_min_writes n (depth + 1) choice).andThen (emit_seq_writes rest depth _)
termination_by structural props

theorem emit_members_writes (props : List (Member Snode)) (first : Bool) (depth : Nat)
    (choice : Option Nat) :
    Writes (fun q => emitMembers props first depth choice q) (membersSize props first depth choice) := by
  cases props with
  | nil =>
      unfold emitMembers membersSize
      exact writes_nothing
  | cons p rest =>
      rcases p with ⟨key, nextKey, req, value⟩
      unfold emitMembers membersSize
      cases req with
      | false => exact emit_members_writes rest first depth choice
      | true =>
          have here := emit_min_writes value (depth + 1) choice
          have later := emit_members_writes rest false depth choice
          exact ((writes_put _).andThen here).andThen later
termination_by structural props

end

/-! ## What the open frames owe -/

/-- A member's key, its colon and its smallest value. -/
def namedSize (p : Member Snode) (choice : Option Nat) : Nat :=
  p.key.length + 3 + minSize p.value 0 choice

/-- The required members with their commas. -/
def closeRequiredSize (choice : Option Nat) : List (Member Snode) → Bool → Nat
  | [], _ => 0
  | p :: rest, needComma =>
      if !p.req then closeRequiredSize choice rest needComma
      else (if needComma then 1 else 0) + namedSize p choice + closeRequiredSize choice rest true

def closeObjSize (props : List (Member Snode)) (from_ : Nat) (needComma forceOne : Bool)
    (choice : Option Nat) : Nat :=
  let rest := props.drop from_
  let forced := match forceOne && !(rest.any fun p => p.req), rest with
    | true, p :: _ => namedSize p choice
    | _, _ => 0
  closeRequiredSize choice rest needComma + forced + 1

def closeMemberListSize (choice : Option Nat) : List (Member Snode) → Bool → Nat
  | [], _ => 0
  | p :: rest, first =>
      if !p.req then closeMemberListSize choice rest first
      else
        (if first then p.key else p.nextKey).length + minSize p.value 0 choice +
          closeMemberListSize choice rest false

def closeMembersSize (props : List (Member Snode)) (sentinel : Bytes) (from_ : Nat)
    (first : Bool) (choice : Option Nat) : Nat :=
  closeMemberListSize choice (props.drop from_) first + sentinel.length

def closeObjFrameSize (f : Sframe) (choice : Option Nat) (props : List (Member Snode)) : Nat :=
  match f.phase with
  | .objKey1 => closeObjSize props f.idx false false choice
  | .objKey => closeObjSize props f.idx false true choice
  | .objInkey =>
      match f.alive.head? with
      | none => closeObjSize props f.idx true false choice
      | some i =>
          (match props[i]? with
            | some p => p.key.length - f.litPos + 2 + minSize p.value 0 choice
            | none => 0) + closeObjSize props (i + 1) true false choice
  | .objColon =>
      1 + (match props[f.sub]? with
        | some p => minSize p.value 0 choice
        | none => 0) + closeObjSize props f.idx true false choice
  | .objNext => closeObjSize props f.idx true false choice
  | _ => 0

def closeMapFrameSize (f : Sframe) (choice : Option Nat) (items : Snode) : Nat :=
  match f.phase with
  | .objKey1 => 1
  | .objKey => minSize items 0 choice + 4
  | .objInkey => (jsonEscapeClose f.sub f.esc).length + minSize items 0 choice + 3
  | .objColon => minSize items 0 choice + 2
  | .objNext => 1
  | _ => 0

def closeMembersFrameSize (f : Sframe) (choice : Option Nat) (props : List (Member Snode))
    (sentinel : Bytes) : Nat :=
  let first := f.phase == .memFirst
  if f.litPos = 0 then closeMembersSize props sentinel f.idx first choice
  else
    match memberPick f with
    | none => 0
    | some pick =>
        (memberPrefix props sentinel pick first).length - f.litPos +
          match props[pick]? with
          | none => 0
          | some p => minSize p.value 0 choice + closeMembersSize props sentinel (pick + 1) false choice

/-- What one open frame owes. -/
def frameSize (v : Sval) (f : Sframe) (below : List Sframe) : Nat :=
  let choice := frameChoice f below
  match f.phase, f.node with
  | .start, .any objectRooted => minSize (.any objectRooted) 0 none
  | _, .any objectRooted =>
      let tail := jsonvClose v.any 512
      if !tail.isEmpty then tail.length
      else if !v.any.done then if objectRooted then 2 else 4
      else 0
  | .start, n => minSize n 0 choice
  | .str, .str minItems _ pat =>
      (jsonEscapeClose f.sub f.esc).length + (stringMin minItems pat - f.litPos) + 1
  | .lit, n =>
      match closePick f with
      | some pick => (n.literals.getD pick []).length - f.litPos
      | none => 0
  | .num, .int numMin numMax => (closeInteger numMin numMax f).length
  | .num, .num realMin realMax => (closeNumber realMin realMax v.numText f).length
  | _, .obj props => closeObjFrameSize f choice props
  | _, .map items => closeMapFrameSize f choice items
  | _, .arr items minItems _ =>
      let missing := minItems - f.idx
      missing * minSize items 0 none +
        (missing - if f.idx = 0 ∧ f.phase ≠ .arrNext then 1 else 0) + 1
  | .seq, .seq props _ => ((props.drop f.idx).map fun n => minSize n 0 choice).sum
  | _, .members props sentinel => closeMembersFrameSize f choice props sentinel
  | .raw, .raw sentinel _ => sentinel.length - f.litPos
  | _, _ => 0

/-- What the frames owe, the innermost first. -/
def framesSize (v : Sval) : Option Nat → List Sframe → Nat
  | _, [] => 0
  | disc, f :: below =>
      let f := { f with disc := disc.getD f.disc }
      let next := if f.phase = .lit then (closePick f).bind fun pick => closeDisc f pick below
        else none
      frameSize v f below + framesSize v next below

/-- What the open frames of a document owe together. -/
def owed (v : Sval) : Nat := framesSize v none v.stack

theorem emit_named_writes (p : Member Snode) (choice : Option Nat) :
    Writes (fun q => emitNamed p choice q) (namedSize p choice) := by
  have value := emit_min_writes p.value 0 choice
  apply ((writes_put (quote :: p.key ++ [quote, colon])).andThen value).of_eq
  simp [namedSize]

theorem close_required_writes (choice : Option Nat) (props : List (Member Snode))
    (needComma : Bool) :
    Writes (fun q => closeRequired choice props needComma q)
      (closeRequiredSize choice props needComma) := by
  induction props generalizing needComma with
  | nil => exact writes_nothing
  | cons p rest induction =>
      unfold closeRequired closeRequiredSize
      split_ifs with skipped comma_
      · exact induction needComma
      · exact ((writes_put [comma]).andThen (emit_named_writes p choice)).andThen (induction true)
      · exact (writes_nothing.andThen (emit_named_writes p choice)).andThen (induction true)

theorem close_obj_writes (props : List (Member Snode)) (from_ : Nat) (needComma forceOne : Bool)
    (choice : Option Nat) :
    Writes (fun q => closeObj props from_ needComma forceOne choice q)
      (closeObjSize props from_ needComma forceOne choice) := by
  have required := close_required_writes choice (props.drop from_) needComma
  unfold closeObj closeObjSize
  dsimp only
  cases forced : forceOne && !((props.drop from_).any fun p => p.req) with
  | false => exact (required.andThen writes_nothing).thenPut [rbrace]
  | true =>
      cases rest : props.drop from_ with
      | nil =>
          rw [rest] at required
          exact (required.andThen writes_nothing).thenPut [rbrace]
      | cons p rest' =>
          rw [rest] at required
          exact (required.andThen (emit_named_writes p choice)).thenPut [rbrace]

theorem close_member_list_writes (choice : Option Nat) (props : List (Member Snode))
    (first : Bool) :
    Writes (fun q => closeMemberList choice props first q)
      (closeMemberListSize choice props first) := by
  induction props generalizing first with
  | nil => exact writes_nothing
  | cons p rest induction =>
      unfold closeMemberList closeMemberListSize
      by_cases skipped : (!p.req) = true
      · simp only [if_pos skipped]
        exact induction first
      · simp only [if_neg skipped]
        have value := emit_min_writes p.value 0 choice
        exact ((writes_put (if first then p.key else p.nextKey)).andThen value).andThen
          (induction false)

theorem close_members_writes (props : List (Member Snode)) (sentinel : Bytes) (from_ : Nat)
    (first : Bool) (choice : Option Nat) :
    Writes (fun q => closeMembers props sentinel from_ first choice q)
      (closeMembersSize props sentinel from_ first choice) :=
  (close_member_list_writes choice (props.drop from_) first).thenPut sentinel

theorem close_seq_writes (choice : Option Nat) (props : List Snode) :
    Writes (fun q => closeSeq choice props q) ((props.map fun n => minSize n 0 choice).sum) := by
  induction props with
  | nil => exact writes_nothing
  | cons n rest induction =>
      rcases (emit_min_writes n 0 choice).andThen induction with ⟨s, size, writes⟩
      refine ⟨s, ?_, ?_⟩
      · rw [size, List.map_cons, List.sum_cons]
      · intro q
        show (if q.full then q else closeSeq choice rest (emitMinChoice n 0 choice q)) = q.put s
        split_ifs with full
        · rw [full_put full]
        · exact writes q

theorem close_obj_frame_writes (f : Sframe) (choice : Option Nat) (props : List (Member Snode)) :
    Writes (fun q => closeObjFrame f choice props q) (closeObjFrameSize f choice props) := by
  have key (p : Member Snode) : Writes (fun q : Emitq =>
      emitMinChoice p.value 0 choice (q.put (p.key.drop f.litPos ++ [quote, colon])))
        (p.key.length - f.litPos + 2 + minSize p.value 0 choice) := by
    apply ((writes_put _).andThen (emit_min_writes p.value 0 choice)).of_eq
    simp
  unfold closeObjFrame closeObjFrameSize
  cases f.phase with
  | objKey1 => exact close_obj_writes props f.idx false false choice
  | objKey => exact close_obj_writes props f.idx false true choice
  | objInkey =>
      cases f.alive.head? with
      | none => exact close_obj_writes props f.idx true false choice
      | some i =>
          have rest := close_obj_writes props (i + 1) true false choice
          cases member : props[i]? with
          | none =>
              simp only [member]
              exact writes_nothing.andThen rest
          | some p =>
              simp only [member]
              exact (key p).andThen rest
  | objColon =>
      have rest := close_obj_writes props f.idx true false choice
      cases member : props[f.sub]? with
      | none =>
          simp only
          exact (writes_put [colon]).andThen rest
      | some p =>
          simp only
          exact ((writes_put [colon]).andThen (emit_min_writes p.value 0 choice)).andThen rest
  | objNext => exact close_obj_writes props f.idx true false choice
  | _ => exact writes_nothing

theorem close_map_frame_writes (f : Sframe) (choice : Option Nat) (items : Snode) :
    Writes (fun q => closeMapFrame f choice items q) (closeMapFrameSize f choice items) := by
  have value (s : Bytes) : Writes (fun q : Emitq =>
      (emitMinChoice items 0 choice (q.put s)).put [rbrace])
        (s.length + minSize items 0 choice + 1) :=
    ((writes_put s).andThen (emit_min_writes items 0 choice)).thenPut [rbrace]
  unfold closeMapFrame closeMapFrameSize
  cases f.phase with
  | objKey1 => exact writes_put [rbrace]
  | objKey =>
      apply (value _).of_eq
      simp only [List.length_cons, List.length_nil]
      omega
  | objInkey =>
      apply (value _).of_eq
      simp only [List.length_append, List.length_cons, List.length_nil]
      omega
  | objColon =>
      apply (value _).of_eq
      simp only [List.length_cons, List.length_nil]
      omega
  | objNext => exact writes_put [rbrace]
  | _ => exact writes_nothing

theorem close_members_frame_writes (f : Sframe) (choice : Option Nat)
    (props : List (Member Snode)) (sentinel : Bytes) :
    Writes (fun q => closeMembersFrame f choice props sentinel q)
      (closeMembersFrameSize f choice props sentinel) := by
  unfold closeMembersFrame closeMembersFrameSize
  dsimp only
  by_cases between : f.litPos = 0
  · simp only [if_pos between]
    exact close_members_writes props sentinel f.idx _ choice
  · simp only [if_neg between]
    cases memberPick f with
    | none => exact writes_nothing
    | some pick =>
        have front : Writes (fun q : Emitq =>
            q.put ((memberPrefix props sentinel pick (f.phase == .memFirst)).drop f.litPos))
              ((memberPrefix props sentinel pick (f.phase == .memFirst)).length - f.litPos) := by
          apply (writes_put _).of_eq
          rw [List.length_drop]
        cases member : props[pick]? with
        | none =>
            simp only [member]
            exact front.andThen writes_nothing
        | some p =>
            simp only [member]
            have rest := close_members_writes props sentinel (pick + 1) false choice
            exact front.andThen ((emit_min_writes p.value 0 choice).andThen rest)

/-- The commas of an array that may have no element yet. -/
theorem items_sum (f : Sframe) (count size : Nat) :
    ((List.range' f.idx count).map fun i =>
      (if 0 < i || f.phase == .arrNext then 1 else 0) + size).sum =
        count * size + (count - if f.idx = 0 ∧ f.phase ≠ .arrNext then 1 else 0) := by
  by_cases fresh : f.idx = 0 ∧ f.phase ≠ .arrNext
  · have same : ∀ i : Nat, (0 < i || f.phase == .arrNext) = decide (i ≠ 0) := by
      intro i
      rw [beq_eq_false_iff_ne.mpr fresh.2, Bool.or_false]
      exact decide_eq_decide.mpr Nat.pos_iff_ne_zero
    rw [if_pos fresh, fresh.1, ← separated, ← separated_sum]
    congr 1
    apply List.map_congr_left
    intro i _
    rw [same]
    cases i <;> simp
  · have same : ∀ i ∈ List.range' f.idx count,
        (if 0 < i || f.phase == .arrNext then 1 else 0) + size = 1 + size := by
      intro i inside
      have bounds := List.mem_range'_1.mp inside
      by_cases next : f.phase = .arrNext
      · simp [next]
      · have positive : 0 < i := by
          have begun : f.idx ≠ 0 := fun none_ => fresh ⟨none_, next⟩
          omega
        simp [positive]
    rw [if_neg fresh, List.map_congr_left same, List.map_const', List.sum_replicate,
      List.length_range', smul_eq_mul, Nat.mul_add, Nat.mul_one, Nat.sub_zero, Nat.add_comm]

theorem close_any_writes (any : Jsonv) (objectRooted : Bool) :
    Writes (fun q : Emitq =>
      if !(jsonvClose any 512).isEmpty then q.put (jsonvClose any 512)
      else if !any.done then q.put (if objectRooted then [lbrace, rbrace] else nullText)
      else q)
      (if !(jsonvClose any 512).isEmpty then (jsonvClose any 512).length
      else if !any.done then if objectRooted then 2 else 4
      else 0) := by
  split_ifs
  · exact writes_put _
  · exact writes_put _
  · exact writes_put _
  · exact writes_nothing

theorem close_frame_writes (v : Sval) (f : Sframe) (below : List Sframe) :
    Writes (fun q => closeFrame v f below q) (frameSize v f below) := by
  have fresh := emit_min_writes f.node 0 (frameChoice f below)
  have literal : Writes (fun q : Emitq => match closePick f with
      | some pick => q.put ((f.node.literals.getD pick []).drop f.litPos)
      | none => q)
      (match closePick f with
      | some pick => (f.node.literals.getD pick []).length - f.litPos
      | none => 0) := by
    cases closePick f with
    | none => exact writes_nothing
    | some pick =>
        apply (writes_put _).of_eq
        rw [List.length_drop]
  unfold closeFrame frameSize
  dsimp only
  cases node : f.node with
  | any objectRooted =>
      cases f.phase with
      | start => exact emit_min_writes _ 0 none
      | _ => exact close_any_writes v.any objectRooted
  | str minItems maxItems pat =>
      rw [node] at fresh literal
      cases f.phase with
      | start => exact fresh
      | lit => exact literal
      | str =>
          have body := emit_fill_writes pat (stringMin minItems pat - f.litPos) f.litPos
          exact ((writes_put (jsonEscapeClose f.sub f.esc)).andThen body).thenPut [quote]
      | _ => exact writes_nothing
  | int numMin numMax =>
      rw [node] at fresh literal
      cases f.phase with
      | start => exact fresh
      | lit => exact literal
      | num => exact writes_put _
      | _ => exact writes_nothing
  | num realMin realMax =>
      rw [node] at fresh literal
      cases f.phase with
      | start => exact fresh
      | lit => exact literal
      | num => exact writes_put _
      | _ => exact writes_nothing
  | obj props =>
      rw [node] at fresh literal
      have open_ := close_obj_frame_writes f (frameChoice f below) props
      cases phase : f.phase with
      | start => exact fresh
      | lit => exact literal
      | _ => exact open_
  | map items =>
      rw [node] at fresh literal
      have open_ := close_map_frame_writes f (frameChoice f below) items
      cases phase : f.phase with
      | start => exact fresh
      | lit => exact literal
      | _ => exact open_
  | arr items minItems maxItems =>
      rw [node] at fresh literal
      have each : ∀ i, Writes (fun q : Emitq => emitMinChoice items 0 none
          (if 0 < i || f.phase == .arrNext then q.put [comma] else q))
            ((if 0 < i || f.phase == .arrNext then 1 else 0) + minSize items 0 none) := by
        intro i
        split_ifs
        · exact (writes_put [comma]).andThen (emit_min_writes items 0 none)
        · exact writes_nothing.andThen (emit_min_writes items 0 none)
      have body := Writes.fill each (minItems - f.idx) f.idx
      rw [items_sum] at body
      have closed := body.thenPut [rbracket]
      cases phase : f.phase with
      | start => exact fresh
      | lit => exact literal
      | _ =>
          rw [phase] at closed
          exact closed
  | seq props ws =>
      rw [node] at fresh literal
      cases f.phase with
      | start => exact fresh
      | lit => exact literal
      | seq => exact close_seq_writes (frameChoice f below) (props.drop f.idx)
      | _ => exact writes_nothing
  | members props sentinel =>
      rw [node] at fresh literal
      have open_ := close_members_frame_writes f (frameChoice f below) props sentinel
      cases phase : f.phase with
      | start => exact fresh
      | lit => exact literal
      | _ => exact open_
  | raw sentinel maxItems =>
      rw [node] at fresh literal
      cases f.phase with
      | start => exact fresh
      | lit => exact literal
      | raw =>
          apply (writes_put (sentinel.drop f.litPos)).of_eq
          rw [List.length_drop]
      | _ => exact writes_nothing
  | _ =>
      rw [node] at fresh literal
      cases f.phase with
      | start => exact fresh
      | lit => exact literal
      | _ => exact writes_nothing

theorem close_frames_writes (v : Sval) (disc : Option Nat) (stack : List Sframe) :
    Writes (fun q => closeFrames v disc stack q) (framesSize v disc stack) := by
  induction stack generalizing disc with
  | nil => exact writes_nothing
  | cons f below induction => exact (close_frame_writes v _ below).andThen (induction _)

/-- A document that is open and has begun. -/
def unfinished (v : Sval) : Prop :=
  v.done = false ∧ ∀ f, v.stack = [f] → f.phase ≠ .start

theorem sval_close_open {v : Sval} (begun : unfinished v) (cap : Nat) :
    svalClose v cap = (closeFrames v none v.stack { room := cap - 1, out := [] }).out := by
  unfold svalClose
  rw [begun.1]
  cases stack : v.stack with
  | nil => rfl
  | cons f below =>
      cases below with
      | nil =>
          have phase := begun.2 f stack
          simp [phase]
      | cons g below => rfl

theorem sval_close_shut {v : Sval} (shut : ¬unfinished v) (cap : Nat) : svalClose v cap = [] := by
  unfold svalClose
  by_cases done : v.done = true
  · simp [done]
  · have root : ∃ f, v.stack = [f] ∧ f.phase = .start := by
      by_contra none_
      apply shut
      refine ⟨by simpa using done, ?_⟩
      intro f stack start
      exact none_ ⟨f, stack, start⟩
    rcases root with ⟨f, stack, start⟩
    simp [stack, start]

/-- A larger buffer receives no more, exactly when what the frames owe fits. -/
theorem sval_close_fits_iff {v : Sval} (begun : unfinished v) (cap : Nat) :
    (∀ more, cap ≤ more → svalClose v more = svalClose v cap) ↔ owed v ≤ cap - 1 := by
  have writes := close_frames_writes v none v.stack
  simp only [sval_close_open begun]
  rw [owed, ← writes.fits_iff (cap - 1)]
  constructor
  · intro same room larger
    by_cases none_ : cap = 0
    · have reached := same (room + 1) (by omega)
      simpa [none_] using reached
    · have reached := same (room + 1) (by omega)
      simpa using reached
  · intro same more larger
    exact same (more - 1) (by omega)

end GridcoreRunner.Schema
