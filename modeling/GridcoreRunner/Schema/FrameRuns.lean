import GridcoreRunner.Schema.FrameBudget

/-!
# One byte against the frames

Every case of `feed_byte` keeps to the frame on top. So a byte is read within the frames and
the calls that the tree of the root asks for, and what is read a second time is not handed
back again.
-/

namespace GridcoreRunner.Schema

set_option autoImplicit false

open GridcoreRunner.Json

/-! ## Answers that stay in their frame -/

/-- The frame keeps the byte, or ends; the frames below it are not touched but by `frame_done`. -/
inductive Answers (n : Snode) (below : List Sframe) : Option (Sval × Bool) → Prop
  | refused : Answers n below none
  | kept {v : Sval} {f : Sframe} (going : v.done = false) (node : f.node = n) :
      Answers n below (stay v f below)
  | left {v : Sval} {f : Sframe} (again : Bool) (going : v.done = false) (node : f.node = n) :
      Answers n below (leave v f below again)

/-- An answer that does not ask for the byte to be read again. -/
def Once (answer : Option (Sval × Bool)) : Prop := ∀ v again, answer = some (v, again) → again = false

theorem once_refused : Once none := by
  intro v again never
  cases never

theorem once_stay (v : Sval) (f : Sframe) (below : List Sframe) : Once (stay v f below) := by
  intro w again same
  cases same
  rfl

theorem once_leave (v : Sval) (f : Sframe) (below : List Sframe) : Once (leave v f below false) := by
  intro w again same
  cases same
  rfl

/-- Both branches. -/
theorem answers_ite {n : Snode} {below : List Sframe} {here there : Option (Sval × Bool)} (P : Prop)
    [Decidable P] (left : Answers n below here) (right : Answers n below there) :
    Answers n below (if P then here else there) := by
  split
  · exact left
  · exact right

section Leaves

variable {v : Sval} {f : Sframe} {below : List Sframe} {c : UInt8}

theorem leading_ws_answers (going : v.done = false) : Answers f.node below (leadingWs v f below) := by
  unfold leadingWs
  split
  · exact Answers.refused
  · exact Answers.kept going rfl

theorem leading_ws_once : Once (leadingWs v f below) := by
  unfold leadingWs
  split
  · exact once_refused
  · exact once_stay v f below

theorem feed_any_answers {n : Snode} (going : v.done = false) (node : f.node = n) :
    Answers n below (feedAny v f below c) := by
  unfold feedAny
  split
  · exact Answers.left true going node
  split
  · dsimp only
    split
    · exact Answers.left false going node
    · exact Answers.kept going node
  · split
    · exact Answers.left true going node
    · exact Answers.refused

theorem feed_lit_answers (going : v.done = false) : Answers f.node below (feedLit v f below c) := by
  have chosen (i : Nat) : (if f.node.isEnum then { v with lastEnum := some i } else v).done = false := by
    split
    · exact going
    · exact going
  unfold feedLit
  dsimp only
  split
  · split
    · exact Answers.left false (chosen _) rfl
    · exact Answers.left true (chosen _) rfl
    · exact Answers.refused
  · exact Answers.kept going rfl

theorem feed_str_answers (minItems : Nat) (maxItems : Option Nat) (pat : List PatSeg)
    (going : v.done = false) :
    Answers f.node below (feedStr minItems maxItems pat v f below c) := by
  unfold feedStr
  dsimp only
  split
  · exact Answers.refused
  split
  · exact Answers.refused
  cases strByte c f.sub f.esc with
  | none => exact Answers.refused
  | some read =>
      apply answers_ite
      · exact answers_ite _ Answers.refused (Answers.left false going rfl)
      apply answers_ite
      · exact answers_ite _ Answers.refused (Answers.kept going rfl)
      · exact Answers.kept going rfl

theorem number_put_done {w : Sval} (put : numberPut v c = some w) : w.done = v.done := by
  unfold numberPut at put
  split at put
  · cases put
  · cases put
    rfl

theorem integer_take_node {numMin numMax : Option ℤ} {g : Sframe}
    (taken : integerTakeByte numMin numMax f c = some g) : g.node = f.node := by
  unfold integerTakeByte at taken
  dsimp only at taken
  cases read : numByte c f.num true with
  | error complete =>
      rw [read] at taken
      dsimp only at taken
      split_ifs at taken
      cases taken
      rfl
  | ok num =>
      rw [read] at taken
      dsimp only at taken
      split_ifs at taken <;> cases taken <;> rfl

theorem taken_answers {n : Snode} {w : Sval} (numMin numMax : Option ℤ) (going : w.done = false)
    (node : f.node = n) :
    Answers n below ((integerTakeByte numMin numMax f c).bind fun g => stay w g below) := by
  cases taken : integerTakeByte numMin numMax f c with
  | none => exact Answers.refused
  | some g => exact Answers.kept going ((integer_take_node taken).trans node)

theorem feed_int_answers (numMin numMax : Option ℤ) (going : v.done = false) :
    Answers f.node below (feedInt numMin numMax v f below c) := by
  unfold feedInt
  cases taken : integerTakeByte numMin numMax f c with
  | none => exact Answers.refused
  | some g =>
      have node := integer_take_node taken
      rw [Option.bind_some]
      split
      · exact Answers.left true going node
      · exact Answers.kept going node

theorem feed_num_answers (realMin realMax : Option ℚ) (going : v.done = false) :
    Answers f.node below (feedNum realMin realMax v f below c) := by
  unfold feedNum
  split
  · split
    · exact Answers.left true going rfl
    · exact Answers.refused
  · cases put : numberPut v c with
    | none => exact Answers.refused
    | some w => exact Answers.kept ((number_put_done put).trans going) rfl

theorem feed_raw_answers (sentinel : Bytes) (maxItems : Option Nat) (going : v.done = false) :
    Answers f.node below (feedRaw sentinel maxItems v f below c) := by
  unfold feedRaw
  split
  · split
    · exact Answers.left false going rfl
    · exact Answers.kept going rfl
  · dsimp only
    split
    · exact Answers.refused
    · exact Answers.kept going rfl

theorem feed_key_answers (props : List (Member Snode)) (going : v.done = false) :
    Answers f.node below (feedKey props v f below c) := by
  unfold feedKey
  dsimp only
  split
  · split
    · exact Answers.kept going rfl
    · exact Answers.refused
  · split
    · exact Answers.refused
    · exact Answers.kept going rfl

theorem feed_map_key_answers (going : v.done = false) :
    Answers f.node below (feedMapKey v f below c) := by
  unfold feedMapKey
  cases strByte c f.sub f.esc with
  | none => exact Answers.refused
  | some read =>
      rw [Option.bind_some]
      dsimp only
      split
      · exact Answers.kept going rfl
      · exact Answers.kept going rfl

/-- Between the key and the colon, nothing of an object calls or pushes. -/
theorem feed_obj_answers (going : v.done = false) (other : f.phase ≠ .objColon) :
    Answers f.node below (feedObj v f below c) := by
  have keeps (g : Sframe) (node : g.node = f.node) : Answers f.node below (stay v g below) :=
    Answers.kept going node
  have ends : Answers f.node below (leave v f below false) := Answers.left false going rfl
  unfold feedObj
  dsimp only
  split
  · exact answers_ite _ (feed_map_key_answers going) (feed_key_answers _ going)
  next phase => exact absurd phase other
  · refine answers_ite _ (keeps _ rfl) ?_
    refine answers_ite _ (answers_ite _ Answers.refused (keeps _ rfl)) ?_
    exact answers_ite _ (answers_ite _ Answers.refused ends) Answers.refused
  · refine answers_ite _ (keeps _ rfl) ?_
    refine answers_ite _ (answers_ite _ Answers.refused ends) ?_
    refine answers_ite _ Answers.refused ?_
    refine answers_ite _ (keeps _ rfl) ?_
    exact answers_ite _ Answers.refused (keeps _ rfl)

end Leaves

/-! ## Moves -/

/-- A move keeps to the frame on top: it ends there, starts what the frame is to read, or
pushes a part of its node. -/
inductive Moves (f : Sframe) (below : List Sframe) : Move → Prop
  | ends {answer : Option (Sval × Bool)} (answers : Answers f.node below answer) :
      Moves f below (.ends answer)
  | again {v : Sval} {g : Sframe} (literal : Bool) (going : v.done = false)
      (stack : v.stack = g :: below) (begins : f.phase = .start)
      (node : g.node = f.node ∧ g.phase ≠ .start ∨ g.node ∈ f.node.choices) :
      Moves f below (.again v literal)
  | push {v : Sval} {g : Sframe} {n : Snode} (reads : Bool) (going : v.done = false)
      (stack : v.stack = g :: below) (node : g.node = f.node) (part : n ∈ f.node.parts) :
      Moves f below (.push v n reads)

section Moves

variable {v : Sval} {f : Sframe} {below : List Sframe} {c : UInt8}

theorem moves_ite {here there : Move} (P : Prop) [Decidable P] (left : Moves f below here)
    (right : Moves f below there) : Moves f below (if P then here else there) := by
  split
  · exact left
  · exact right

theorem refused_moves : Moves f below (.ends none) := Moves.ends Answers.refused

theorem stay_moves (going : v.done = false) : Moves f below (.ends (stay v f below)) :=
  Moves.ends (Answers.kept going rfl)

theorem leave_moves (going : v.done = false) (again : Bool) :
    Moves f below (.ends (leave v f below again)) := Moves.ends (Answers.left again going rfl)

theorem instead_moves (going : v.done = false) (begins : f.phase = .start) (choice : Option Nat)
    {alts : List Snode} (choices : f.node.choices = alts) :
    Moves f below (match choice.bind fun i => alts[i]? with
      | some n => .again (v.setTop { f with node := n } below) false
      | none => .ends none) := by
  cases chosen : choice.bind fun i => alts[i]? with
  | none => exact refused_moves
  | some n =>
      obtain ⟨i, _, place⟩ := Option.bind_eq_some_iff.mp chosen
      have member : n ∈ f.node.choices := choices ▸ List.mem_of_getElem? place
      exact Moves.again false going rfl begins (Or.inr member)

/-- A number's first byte. -/
theorem first_digit_answers {n : Snode} (going : v.done = false) (node : f.node = n) :
    Answers n below ((numberPut { v with numText := [] } c).bind fun v => stay v f below) := by
  cases put : numberPut { v with numText := [] } c with
  | none => exact Answers.refused
  | some w => exact Answers.kept ((number_put_done put).trans going) node

theorem first_digit_once : Once ((numberPut { v with numText := [] } c).bind fun v => stay v f below) := by
  cases numberPut { v with numText := [] } c with
  | none => exact once_refused
  | some w => exact once_stay w f below

theorem start_moves (going : v.done = false) (begins : f.phase = .start) :
    Moves f below (moveStart v f below c) := by
  have literal (alive : List Nat) : Moves f below
      (.again (v.setTop { f with phase := .lit, litPos := 0, sub := 0, alive := alive } below) true) :=
    Moves.again true going rfl begins (Or.inl ⟨rfl, fun same => by cases same⟩)
  have keeps (g : Sframe) (node : g.node = f.node) : Answers f.node below (stay v g below) :=
    Answers.kept going node
  have blank : Answers f.node below (leadingWs v f below) := leading_ws_answers going
  obtain ⟨node, phase, sub, num, idx, litPos, sign, disc, esc, alive, numAbs⟩ := f
  unfold moveStart
  dsimp only
  refine moves_ite _ (Moves.ends blank) ?_
  cases node with
  | null => exact literal _
  | bool => exact literal _
  | enum lits selects ws => exact literal _
  | union alts ws => exact instead_moves going begins _ rfl
  | cond alts ws => exact instead_moves going begins _ rfl
  | seq props ws =>
      cases props with
      | nil => exact leave_moves going true
      | cons first rest => exact Moves.push true going rfl rfl List.mem_cons_self
  | members props sentinel =>
      exact Moves.again false going rfl begins (Or.inl ⟨rfl, fun same => by cases same⟩)
  | raw sentinel maxItems =>
      exact Moves.again false going rfl begins (Or.inl ⟨rfl, fun same => by cases same⟩)
  | any objectRooted => exact Moves.ends (answers_ite _ blank (feed_any_answers going rfl))
  | num realMin realMax =>
      refine Moves.ends (answers_ite _ blank (answers_ite _ Answers.refused ?_))
      cases numByte c .start false with
      | error complete => exact Answers.refused
      | ok num => exact first_digit_answers going rfl
  | int numMin numMax =>
      exact Moves.ends (answers_ite _ blank (taken_answers numMin numMax going rfl))
  | str minItems maxItems pat =>
      exact Moves.ends (answers_ite _ blank (answers_ite _ Answers.refused (keeps _ rfl)))
  | obj props => exact Moves.ends (answers_ite _ blank (answers_ite _ Answers.refused (keeps _ rfl)))
  | map items => exact Moves.ends (answers_ite _ blank (answers_ite _ Answers.refused (keeps _ rfl)))
  | arr items minItems maxItems =>
      exact Moves.ends (answers_ite _ blank (answers_ite _ Answers.refused (keeps _ rfl)))

theorem colon_moves (going : v.done = false) {value : Option Snode}
    (parts : ∀ n, value = some n → n ∈ f.node.parts) : Moves f below (moveColon value v f below c) := by
  unfold moveColon
  refine moves_ite _ (stay_moves going) (moves_ite _ refused_moves ?_)
  cases value with
  | none => exact refused_moves
  | some n => exact Moves.push false going rfl rfl (parts n rfl)

theorem member_part {props : List (Member Snode)} {i : Nat} {p : Member Snode}
    (place : props[i]? = some p) : p.value ∈ props.map Member.value :=
  List.mem_map_of_mem (List.mem_of_getElem? place)

theorem match_member_node {props : List (Member Snode)} {sentinel : Bytes} {g : Sframe}
    (matched : matchMember props sentinel f c = some (.going g)) : g.node = f.node := by
  unfold matchMember at matched
  extract_lets alive lit matching ends completed next pending at matched
  clear_value completed pending
  split at matched
  · split at matched <;> cases matched
  · cases matched
    rfl

theorem members_moves (going : v.done = false) {props : List (Member Snode)} {sentinel : Bytes}
    (node : f.node = .members props sentinel) :
    Moves f below (moveMembers props sentinel v f below c) := by
  unfold moveMembers
  cases matched : matchMember props sentinel f c with
  | none => exact refused_moves
  | some found =>
      cases found with
      | going g => exact Moves.ends (Answers.kept going (match_member_node matched))
      | picked which again =>
          refine moves_ite _ (leave_moves going again) ?_
          cases place : props[which]? with
          | none => exact refused_moves
          | some p =>
              have part : p.value ∈ f.node.parts := by
                rw [node]
                exact member_part place
              exact Moves.push again going rfl rfl part

/-- What `feed_byte` does with a byte, from any state. -/
theorem move_moves (going : v.done = false) (stack : v.stack = f :: below) :
    Moves f below (move v c) := by
  have open_ : ¬v.done = true := by
    rw [going]
    exact Bool.false_ne_true
  unfold move
  rw [if_neg open_, stack]
  dsimp only
  split
  next begins => exact start_moves going begins
  next props phase node =>
    apply colon_moves going
    intro n chosen
    obtain ⟨p, place, rfl⟩ := Option.map_eq_some_iff.mp chosen
    rw [node]
    exact member_part place
  next items phase node =>
    apply colon_moves going
    intro n chosen
    cases chosen
    rw [node]
    exact List.mem_singleton_self items
  next items minItems maxItems phase node =>
    have part : items ∈ f.node.parts := by
      rw [node]
      exact List.mem_singleton_self items
    refine moves_ite _ (stay_moves going) (moves_ite _ ?_ (Moves.push true going rfl rfl part))
    exact Moves.ends (answers_ite _ Answers.refused (Answers.left false going rfl))
  next items minItems maxItems phase node =>
    have part : items ∈ f.node.parts := by
      rw [node]
      exact List.mem_singleton_self items
    refine moves_ite _ (stay_moves going) (moves_ite _ ?_ (moves_ite _ ?_ refused_moves))
    · exact moves_ite _ refused_moves (Moves.push false going rfl rfl part)
    · exact Moves.ends (answers_ite _ Answers.refused (Answers.left false going rfl))
  next props ws phase node =>
    unfold moveSeq
    cases place : props[f.idx]? with
    | none => exact leave_moves going true
    | some n =>
        have part : n ∈ f.node.parts := by
          rw [node]
          exact List.mem_of_getElem? place
        exact Moves.push true going rfl rfl part
  next props sentinel phase node => exact members_moves going node
  next props sentinel phase node => exact members_moves going node
  next start colonObj colonMap arrFirst arrNext seq memFirst memNext =>
    apply Moves.ends
    unfold feedByte
    rw [if_neg open_, stack]
    dsimp only
    split
    next phase => exact absurd phase start
    next node => exact feed_any_answers going rfl
    next => exact feed_str_answers _ _ _ going
    next => exact feed_lit_answers going
    next => exact feed_int_answers _ _ going
    next => exact feed_num_answers _ _ going
    next phase node => exact absurd node (arrFirst _ _ _ phase)
    next phase node => exact absurd node (arrNext _ _ _ phase)
    next phase node => exact absurd node (seq _ _ phase)
    next phase node => exact absurd node (memFirst _ _ phase)
    next phase node => exact absurd node (memNext _ _ phase)
    next => exact feed_raw_answers _ _ going
    next => exact feed_obj_answers going fun phase => colonObj _ phase (by assumption)
    next => exact feed_obj_answers going fun phase => colonMap _ phase (by assumption)
    next => exact Answers.refused

end Moves

/-! ## The calls for one byte -/

/-- The calls that the frame on top may need: two for each level of its node. -/
def Sframe.need (f : Sframe) : Nat :=
  if f.phase = .start then 2 * f.node.height else 2 * f.node.height - 1

def Sval.need (v : Sval) : Nat :=
  match v.stack with
  | [] => 1
  | f :: _ => f.need

/-- An answer within the bounds of the tree: only the grammar refuses. -/
inductive Fine (root : Snode) : Except Refusal (Sval × Bool) → Prop
  | refused : Fine root (.error .grammar)
  | kept {v : Sval} (nested : Nested root v.nodes) : Fine root (.ok (v, false))
  | handed {v : Sval} (nested : Nested root v.nodes) (resumed : v.Resumed) : Fine root (.ok (v, true))

section Calls

variable {root : Snode} {v : Sval} {f : Sframe} {below : List Sframe} {c : UInt8}

theorem Sframe.need_le (f : Sframe) : f.need ≤ 2 * f.node.height := by
  unfold Sframe.need
  split
  · exact Nat.le_refl _
  · exact Nat.sub_le _ _

theorem Sframe.need_pos (f : Sframe) : 2 * f.node.height ≤ f.need + 1 := by
  unfold Sframe.need
  split
  · exact Nat.le_succ _
  · omega

theorem Sframe.need_start (begins : f.phase = .start) : f.need = 2 * f.node.height := if_pos begins

theorem Sframe.need_inside (inside : f.phase ≠ .start) : f.need = 2 * f.node.height - 1 :=
  if_neg inside

theorem Sval.need_pos (v : Sval) : 0 < v.need := by
  unfold Sval.need
  split
  · exact Nat.one_pos
  next f below stack =>
    have height := f.node.height_pos
    have need := f.need_pos
    omega

theorem Sval.need_top (stack : v.stack = f :: below) : v.need = f.need := by
  rw [Sval.need, stack]

theorem Sval.nodes_top (stack : v.stack = f :: below) : v.nodes = f.node :: below.map Sframe.node := by
  rw [Sval.nodes, stack, List.map_cons]

theorem Fine.mask {answer : Except Refusal (Sval × Bool)} (fine : Fine root answer) (literal : Bool) :
    Fine root (answer.map fun result => (result.1, result.2 && !literal)) := by
  cases fine with
  | refused => exact Fine.refused
  | kept nested => exact Fine.kept nested
  | handed nested resumed =>
      cases literal with
      | false => exact Fine.handed nested resumed
      | true => exact Fine.kept nested

theorem leave_fine (nested : Nested root (f.node :: below.map Sframe.node)) (again : Bool) :
    Fine root (.ok (frameDone v f below, again)) := by
  obtain ⟨⟨count, dropped⟩, resumed⟩ :=
    settle_resumes v.lastEnum f.node below nested.below_holds
  have rest : Nested root (frameDone v f below).nodes := by
    have tail : Nested root (below.map Sframe.node) := nested.drop 1
    have kept := tail.drop count
    rw [← dropped] at kept
    exact kept
  cases again with
  | false => exact Fine.kept rest
  | true =>
      apply Fine.handed rest
      cases resumed with
      | inl spent => exact Or.inl (Bool.or_eq_true_iff.mpr (Or.inr spent))
      | inr goes => exact Or.inr goes

/-- With the calls that its frame needs, a byte is refused by the grammar alone. -/
theorem feed_calls_fine (room : root.frames ≤ stackLimit) (calls : Nat) (v : Sval)
    (nested : Nested root v.nodes) (enough : v.need ≤ calls) :
    Fine root (feedCalls calls v c) := by
  induction calls generalizing v with
  | zero => exact absurd v.need_pos (by omega)
  | succ calls induction =>
      unfold feedCalls
      cases going : v.done with
      | true =>
          have ends : move v c = .ends none := if_pos going
          rw [ends]
          exact Fine.refused
      | false =>
          cases stack : v.stack with
          | nil =>
              have ends : move v c = .ends none := by
                rw [move, going, stack]
                rfl
              rw [ends]
              exact Fine.refused
          | cons f below =>
              rw [Sval.nodes_top stack] at nested
              rw [Sval.need_top stack] at enough
              have moves := move_moves (c := c) going stack
              generalize move v c = made at moves
              cases moves with
              | ends answers =>
                  cases answers with
                  | refused => exact Fine.refused
                  | kept going node =>
                      apply Fine.kept
                      rw [Sval.nodes_top rfl, node]
                      exact nested
                  | left again _ node =>
                      apply leave_fine
                      rw [node]
                      exact nested
              | again literal going above begins node =>
                  rename_i w g
                  dsimp only
                  apply Fine.mask
                  apply induction
                  · rw [Sval.nodes_top above]
                    cases node with
                    | inl same =>
                        rw [same.1]
                        exact nested
                    | inr choice => exact nested.choose choice
                  · rw [Sval.need_top above]
                    rw [Sframe.need_start begins] at enough
                    cases node with
                    | inl same =>
                        rw [Sframe.need_inside same.2, same.1]
                        omega
                    | inr choice =>
                        have lower := (Snode.below_choice choice).height
                        have most := g.need_le
                        omega
              | push reads going above node part =>
                  rename_i w g n
                  have free := nested.room part
                  have here : w.stack.length = (f.node :: below.map Sframe.node).length := by
                    rw [above, List.length_cons, List.length_cons, List.length_map]
                  have pushed : Nested root (w.pushed n).nodes := by
                    have nodes : (w.pushed n).nodes = n :: f.node :: below.map Sframe.node := by
                      rw [Sval.nodes_top rfl, above, List.map_cons, node]
                      rfl
                    rw [nodes]
                    exact nested.push part
                  dsimp only
                  rw [if_neg (by omega)]
                  cases reads with
                  | false => exact Fine.kept pushed
                  | true =>
                      apply induction _ pushed
                      have lower := (Snode.below_part part).height
                      have least := f.need_pos
                      have most := (Sframe.start n).need_le
                      have child : (Sframe.start n).node = n := rfl
                      rw [child] at most
                      rw [Sval.need_top rfl]
                      omega

end Calls

/-! ## No byte is handed back twice -/

section Twice

variable {root : Snode} {v : Sval} {f : Sframe} {below : List Sframe} {c : UInt8}

/-- No answer asks for the byte to be read again. -/
def OnceCalls (answer : Except Refusal (Sval × Bool)) : Prop :=
  ∀ v again, answer = .ok (v, again) → again = false

theorem once_calls_ends (calls : Nat) {answer : Option (Sval × Bool)} (ends : move v c = .ends answer)
    (once : Once answer) : OnceCalls (feedCalls (calls + 1) v c) := by
  intro w again same
  rw [feedCalls, ends] at same
  cases answer with
  | none => cases same
  | some result =>
      cases same
      exact once w again rfl

theorem once_calls_again (calls : Nat) {w : Sval} {literal : Bool}
    (goes : move v c = .again w literal) (once : literal = false → OnceCalls (feedCalls calls w c)) :
    OnceCalls (feedCalls (calls + 1) v c) := by
  intro u again same
  rw [feedCalls, goes] at same
  dsimp only at same
  cases answer : feedCalls calls w c with
  | error refusal =>
      rw [answer] at same
      cases same
  | ok result =>
      rw [answer] at same
      cases same
      cases literal with
      | true => exact Bool.and_false _
      | false =>
          rw [Bool.not_false, Bool.and_true]
          exact once rfl result.1 result.2 answer

theorem once_calls_push (calls : Nat) {w : Sval} {n : Snode} {reads : Bool}
    (pushes : move v c = .push w n reads)
    (once : reads = true → OnceCalls (feedCalls calls (w.pushed n) c)) :
    OnceCalls (feedCalls (calls + 1) v c) := by
  intro u again same
  rw [feedCalls, pushes] at same
  dsimp only at same
  split at same
  · cases same
  split at same
  next reads => exact once reads u again same
  · cases same
    rfl

theorem feed_raw_once (sentinel : Bytes) (maxItems : Option Nat) :
    Once (feedRaw sentinel maxItems v f below c) := by
  unfold feedRaw
  split
  · split
    · exact once_leave _ _ _
    · exact once_stay _ _ _
  · dsimp only
    split
    · exact once_refused
    · exact once_stay _ _ _

/-- The generic machine has nothing to end at its first byte. -/
theorem feed_any_once (objectRooted : Bool) :
    Once (feedAny { v with any := if objectRooted then jsonvInit else jsonvInitAny } f below c) := by
  have fresh : (if objectRooted then jsonvInit else jsonvInitAny).done = false ∧
      jsonvValueEnd (if objectRooted then jsonvInit else jsonvInitAny) = false := by
    cases objectRooted with
    | false => exact ⟨rfl, rfl⟩
    | true => exact ⟨rfl, rfl⟩
  unfold feedAny
  dsimp only
  rw [fresh.1, if_neg Bool.false_ne_true]
  split
  · split
    · exact once_leave _ _ _
    · exact once_stay _ _ _
  · rw [fresh.2, if_neg Bool.false_ne_true]
    exact once_refused

theorem once_ite {here there : Option (Sval × Bool)} (P : Prop) [Decidable P] (left : Once here)
    (right : Once there) : Once (if P then here else there) := by
  split
  · exact left
  · exact right

theorem match_member_once {props : List (Member Snode)} {sentinel : Bytes} {which : Nat}
    {again : Bool} (fresh : f.sub = 0)
    (matched : matchMember props sentinel f c = some (.picked which again)) : again = false := by
  unfold matchMember at matched
  extract_lets alive lit matching ends completed next pending at matched
  have none_ : pending = none := if_pos fresh
  rw [none_] at matched
  clear_value completed
  split at matched
  · cases completed with
    | none => cases matched
    | some i =>
        cases matched
        rfl
  · cases matched

/-- A list of members that has matched nothing yet. -/
theorem members_once (calls : Nat) {props : List (Member Snode)} {sentinel : Bytes}
    (going : v.done = false) (stack : v.stack = f :: below) (node : f.node = .members props sentinel)
    (phase : f.phase = .memFirst ∨ f.phase = .memNext) (fresh : f.sub = 0) :
    OnceCalls (feedCalls calls v c) := by
  cases calls with
  | zero =>
      intro w again same
      cases same
  | succ calls =>
      have moved : move v c = moveMembers props sentinel v f below c := by
        unfold move
        rw [going, stack]
        cases phase with
        | inl first => simp [node, first]
        | inr next => simp [node, next]
      unfold moveMembers at moved
      cases matched : matchMember props sentinel f c with
      | none =>
          rw [matched] at moved
          exact once_calls_ends calls moved once_refused
      | some found =>
          rw [matched] at moved
          cases found with
          | going g => exact once_calls_ends calls moved (once_stay _ _ _)
          | picked which again =>
              have once := match_member_once fresh matched
              dsimp only at moved
              split at moved
              · rw [once] at moved
                exact once_calls_ends calls moved (once_leave _ _ _)
              · split at moved
                · apply once_calls_push calls moved
                  intro reads
                  rw [once] at reads
                  cases reads
                · exact once_calls_ends calls moved once_refused

theorem raw_once (calls : Nat) {sentinel : Bytes} {maxItems : Option Nat} (going : v.done = false)
    (stack : v.stack = f :: below) (node : f.node = .raw sentinel maxItems) (raw : f.phase = .raw) :
    OnceCalls (feedCalls calls v c) := by
  cases calls with
  | zero =>
      intro w again same
      cases same
  | succ calls =>
      have moved : move v c = .ends (feedByte v c) := by
        unfold move
        rw [going, stack]
        simp [node, raw]
      have read : feedByte v c = feedRaw sentinel maxItems v f below c := by
        have top : v = v.setTop f below := by rw [Sval.setTop, ← stack]
        rw [top, feed_byte_raw_phase going node raw]
        rfl
      apply once_calls_ends calls moved
      rw [read]
      exact feed_raw_once sentinel maxItems

theorem bind_stay_once (taken : Option Sframe) : Once (taken.bind fun g => stay v g below) := by
  cases taken with
  | none => exact once_refused
  | some g => exact once_stay v g below

theorem move_start (going : v.done = false) (stack : v.stack = f :: below) (begins : f.phase = .start) :
    move v c = moveStart v f below c := by
  unfold move
  rw [going, stack]
  simp [begins]

/-- A value that begins keeps its first byte. -/
theorem fresh_once (calls : Nat) (v : Sval) (f : Sframe) (below : List Sframe)
    (going : v.done = false) (stack : v.stack = f :: below) (begins : f.phase = .start)
    (full : f.node.full = true) : OnceCalls (feedCalls calls v c) := by
  induction calls generalizing v f below with
  | zero =>
      intro w again same
      cases same
  | succ calls induction =>
      have moved := move_start (c := c) going stack begins
      obtain ⟨node, phase, sub, num, idx, litPos, sign, disc, esc, alive, numAbs⟩ := f
      unfold moveStart at moved
      dsimp only at moved
      by_cases blank : (isWs c && !node.wsSignificant) = true
      · rw [if_pos blank] at moved
        exact once_calls_ends calls moved leading_ws_once
      rw [if_neg blank] at moved
      have masked {w : Sval} (goes : move v c = .again w true) :
          OnceCalls (feedCalls (calls + 1) v c) := by
        apply once_calls_again calls goes
        intro unmasked
        cases unmasked
      have instead {alts : List Snode} {choice : Option Nat}
          (all : ∀ n ∈ alts, n.full = true)
          (goes : move v c = match choice.bind fun i => alts[i]? with
            | some n => .again (v.setTop
                ⟨n, phase, sub, num, idx, litPos, sign, disc, esc, alive, numAbs⟩ below) false
            | none => .ends none) : OnceCalls (feedCalls (calls + 1) v c) := by
        cases chosen : choice.bind fun i => alts[i]? with
        | none =>
            rw [chosen] at goes
            exact once_calls_ends calls goes once_refused
        | some n =>
            rw [chosen] at goes
            obtain ⟨i, _, place⟩ := Option.bind_eq_some_iff.mp chosen
            apply once_calls_again calls goes
            intro _
            exact induction _ _ _ going rfl begins (all n (List.mem_of_getElem? place))
      cases node with
      | null => exact masked moved
      | bool => exact masked moved
      | enum lits selects ws => exact masked moved
      | union alts ws => exact instead (fun n member => (Snode.below_choice member).full full) moved
      | cond alts ws => exact instead (fun n member => (Snode.below_choice member).full full) moved
      | seq props ws =>
          cases props with
          | nil => cases full
          | cons first rest =>
              apply once_calls_push calls moved
              intro _
              have part : first ∈ (Snode.seq (first :: rest) ws).parts := List.mem_cons_self
              exact induction _ _ _ going rfl rfl ((Snode.below_part part).full full)
      | members props sentinel =>
          apply once_calls_again calls moved
          intro _
          exact members_once calls going rfl rfl (Or.inl rfl) rfl
      | raw sentinel maxItems =>
          apply once_calls_again calls moved
          intro _
          exact raw_once calls going rfl rfl rfl
      | any objectRooted => exact once_calls_ends calls moved (once_ite _ leading_ws_once (feed_any_once _))
      | num realMin realMax =>
          apply once_calls_ends calls moved
          refine once_ite _ leading_ws_once (once_ite _ once_refused ?_)
          cases numByte c .start false with
          | error complete => exact once_refused
          | ok num => exact first_digit_once
      | int numMin numMax =>
          apply once_calls_ends calls moved
          exact once_ite _ leading_ws_once (bind_stay_once _)
      | str minItems maxItems pat =>
          exact once_calls_ends calls moved
            (once_ite _ leading_ws_once (once_ite _ once_refused (once_stay _ _ _)))
      | obj props =>
          exact once_calls_ends calls moved
            (once_ite _ leading_ws_once (once_ite _ once_refused (once_stay _ _ _)))
      | map items =>
          exact once_calls_ends calls moved
            (once_ite _ leading_ws_once (once_ite _ once_refused (once_stay _ _ _)))
      | arr items minItems maxItems =>
          exact once_calls_ends calls moved
            (once_ite _ leading_ws_once (once_ite _ once_refused (once_stay _ _ _)))

theorem feed_obj_once (next : f.phase = .objNext) : Once (feedObj v f below c) := by
  unfold feedObj
  rw [next]
  refine once_ite _ (once_stay _ _ _) (once_ite _ (once_ite _ once_refused (once_stay _ _ _)) ?_)
  exact once_ite _ (once_ite _ once_refused (once_leave _ _ _)) once_refused

/-- The byte that ended a child is not handed back again. -/
theorem resumed_once (calls : Nat) (nested : Nested root v.nodes) (resumed : v.Resumed) :
    OnceCalls (feedCalls calls v c) := by
  cases calls with
  | zero =>
      intro w again same
      cases same
  | succ calls =>
      cases going : v.done with
      | true => exact once_calls_ends calls (if_pos going) once_refused
      | false =>
          obtain spent | ⟨f, below, stack, resumed⟩ := resumed
          · rw [going] at spent
            cases spent
          have whole : f.node.full = true := by
            rw [Sval.nodes_top stack] at nested
            cases nested with
            | cons frames height full holds rest => exact full
          unfold Sframe.Resumed at resumed
          cases node : f.node with
          | obj props =>
              rw [node] at resumed
              have moved : move v c = .ends (feedObj v f below c) := by
                simp [move, feedByte, going, stack, resumed, node]
              exact once_calls_ends calls moved (feed_obj_once resumed)
          | map items =>
              rw [node] at resumed
              have moved : move v c = .ends (feedObj v f below c) := by
                simp [move, feedByte, going, stack, resumed, node]
              exact once_calls_ends calls moved (feed_obj_once resumed)
          | arr items minItems maxItems =>
              rw [node] at resumed
              have moved : move v c = moveNext items minItems maxItems v f below c := by
                simp [move, going, stack, resumed, node]
              unfold moveNext at moved
              split at moved
              · exact once_calls_ends calls moved (once_stay _ _ _)
              split at moved
              · split at moved
                · exact once_calls_ends calls moved once_refused
                · apply once_calls_push calls moved
                  intro reads
                  cases reads
              split at moved
              · exact once_calls_ends calls moved (once_ite _ once_refused (once_leave _ _ _))
              · exact once_calls_ends calls moved once_refused
          | seq props ws =>
              rw [node] at resumed
              have moved : move v c = moveSeq props v f below := by
                simp [move, going, stack, resumed.1, node]
              unfold moveSeq at moved
              rw [List.getElem?_eq_getElem resumed.2] at moved
              apply once_calls_push calls moved
              intro _
              have part : props[f.idx] ∈ f.node.parts := by
                rw [node]
                exact List.getElem_mem resumed.2
              exact fresh_once calls _ _ _ going rfl rfl ((Snode.below_part part).full whole)
          | members props sentinel =>
              rw [node] at resumed
              exact members_once _ going stack node (Or.inr resumed.1) resumed.2.2.2
          | _ =>
              rw [node] at resumed
              exact resumed.elim

end Twice

/-! ## A whole text -/

section Runs

variable {root : Snode}

/-- The frame of the root, and only it. -/
theorem init_nested (full : root.full = true) : Nested root (svalInit root).nodes := nested_root full

theorem Nested.need (v : Sval) (nested : Nested root v.nodes) : v.need ≤ 2 * root.height := by
  have height := root.height_pos
  unfold Sval.need
  split
  · omega
  next f below stack =>
    rw [Sval.nodes_top stack] at nested
    have most := f.need_le
    have bound := nested.height
    omega

/-- A round of `sval_feed` refuses for the grammar, or keeps within the bounds. -/
theorem round_calls_fine (room : root.frames ≤ stackLimit) {v : Sval} (nested : Nested root v.nodes)
    (c : UInt8) :
    roundCalls (2 * root.height) v c = .error .grammar ∨
      ∃ w, roundCalls (2 * root.height) v c = .ok w ∧ Nested root w.nodes := by
  have first := feed_calls_fine (c := c) room (2 * root.height) v nested (nested.need v)
  unfold roundCalls
  generalize feedCalls (2 * root.height) v c = answer at first
  cases first with
  | refused => exact Or.inl rfl
  | kept nested => exact Or.inr ⟨_, rfl, nested⟩
  | handed nested resumed =>
      rename_i w
      have second := feed_calls_fine (c := c) room (2 * root.height) w nested (nested.need w)
      have once := resumed_once (c := c) (2 * root.height) nested resumed
      dsimp only
      generalize feedCalls (2 * root.height) w c = answer at second once
      cases second with
      | refused => exact Or.inl rfl
      | kept nested => exact Or.inr ⟨_, rfl, nested⟩
      | handed nested resumed => cases once _ true rfl

/-- Where the frames of the tree fit the stack, only the grammar refuses. -/
theorem sval_feed_calls_fine (full : root.full = true) (room : root.frames ≤ stackLimit) (s : Bytes) :
    svalFeedCalls (2 * root.height) s (svalInit root) = .error .grammar ∨
      ∃ v, svalFeedCalls (2 * root.height) s (svalInit root) = .ok v := by
  have run : ∀ (s : Bytes) (v : Sval), Nested root v.nodes →
      svalFeedCalls (2 * root.height) s v = .error .grammar ∨
        ∃ w, svalFeedCalls (2 * root.height) s v = .ok w := by
    intro s
    induction s with
    | nil =>
        intro v nested
        exact Or.inr ⟨v, rfl⟩
    | cons c s induction =>
        intro v nested
        unfold svalFeedCalls
        cases round_calls_fine room nested c with
        | inl refused =>
            rw [refused]
            exact Or.inl rfl
        | inr taken =>
            obtain ⟨w, taken, nested⟩ := taken
            rw [taken]
            exact induction w nested
  exact run s (svalInit root) (init_nested full)

end Runs

end GridcoreRunner.Schema
