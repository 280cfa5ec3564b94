import GridcoreRunner.Schema.Validator

/-!
# The calls that `feed_byte` makes to itself

`feed_byte` as the source has it: a value that begins, an element or a member may make it call
itself, with the same byte. The calls are counted down, and a refused byte says what refused
it: the grammar, a full stack, or a byte that was handed back twice.
-/

namespace GridcoreRunner.Schema

set_option autoImplicit false

open GridcoreRunner.Json

/-- Why a byte is not taken. -/
inductive Refusal
  | grammar
  | stack
  | calls
  | twice
deriving DecidableEq

/-- What `feed_byte` does before it calls itself: nothing follows, a call follows, or
`push_value` and then perhaps a call. A literal answers 0 for whatever its call hands back. -/
inductive Move
  | ends (result : Option (Sval × Bool))
  | again (v : Sval) (literal : Bool)
  | push (v : Sval) (n : Snode) (reads : Bool)

/-- The case `P_START`. -/
def moveStart (v : Sval) (f : Sframe) (below : List Sframe) (c : UInt8) : Move :=
  let literal (alive : List Nat) : Move :=
    .again (v.setTop { f with phase := .lit, litPos := 0, sub := 0, alive := alive } below) true
  let instead (n : Option Snode) : Move :=
    match n with
    | some n => .again (v.setTop { f with node := n } below) false
    | none => .ends none
  if isWs c && !f.node.wsSignificant then .ends (leadingWs v f below)
  else
    match f.node with
    | .null => literal [0]
    | .bool => literal [0, 1]
    | .enum lits _ _ => literal (List.range lits.length)
    | .union alts _ => instead ((pickAlt alts c).bind fun i => alts[i]?)
    | .cond alts _ => instead ((frameChoice f below).bind fun i => alts[i]?)
    | .seq [] _ => .ends (leave v f below true)
    | .seq (first :: _) _ => .push (v.setTop { f with phase := .seq, idx := 1 } below) first true
    | .members props _ =>
        .again (v.setTop { f with phase := .memFirst, idx := 0, litPos := 0, sub := 0
                                  alive := memberCandidates props 0 } below) false
    | .raw _ _ => .again (v.setTop { f with phase := .raw, litPos := 0 } below) false
    | n => .ends (enter c n v f below)

/-- The case `P_OBJ_COLON`; `value` is the node of the member's value. -/
def moveColon (value : Option Snode) (v : Sval) (f : Sframe) (below : List Sframe) (c : UInt8) :
    Move :=
  if isWs c then .ends (stay v f below)
  else if c ≠ colon then .ends none
  else
    match value with
    | some n => .push (v.setTop { f with phase := .objNext } below) n false
    | none => .ends none

/-- The case `P_ARR_FIRST`. -/
def moveFirst (items : Snode) (minItems : Nat) (v : Sval) (f : Sframe) (below : List Sframe)
    (c : UInt8) : Move :=
  if isWs c then .ends (stay v f below)
  else if c = rbracket then .ends (if 0 < minItems then none else leave v f below false)
  else .push (v.setTop { f with idx := 1, phase := .arrNext } below) items true

/-- The case `P_ARR_NEXT`. -/
def moveNext (items : Snode) (minItems : Nat) (maxItems : Option Nat) (v : Sval) (f : Sframe)
    (below : List Sframe) (c : UInt8) : Move :=
  if isWs c then .ends (stay v f below)
  else if c = comma then
    if maxItems.any fun bound => decide (bound ≤ f.idx) then .ends none
    else .push (v.setTop { f with idx := f.idx + 1 } below) items false
  else if c = rbracket then .ends (if f.idx < minItems then none else leave v f below false)
  else .ends none

/-- The case `P_SEQ`. -/
def moveSeq (props : List Snode) (v : Sval) (f : Sframe) (below : List Sframe) : Move :=
  match props[f.idx]? with
  | some n => .push (v.setTop { f with idx := f.idx + 1 } below) n true
  | none => .ends (leave v f below true)

/-- The cases `P_MEM_FIRST` and `P_MEM_NEXT`. -/
def moveMembers (props : List (Member Snode)) (sentinel : Bytes) (v : Sval) (f : Sframe)
    (below : List Sframe) (c : UInt8) : Move :=
  match matchMember props sentinel f c with
  | none => .ends none
  | some (.going f) => .ends (stay v f below)
  | some (.picked which again) =>
      if which = props.length then .ends (leave v f below again)
      else
        match props[which]? with
        | some p => .push (v.setTop (memberFrame f which) below) p.value again
        | none => .ends none

/-- The cases of `feed_byte`. Those without a line of their own neither push nor call. -/
def move (v : Sval) (c : UInt8) : Move :=
  if v.done then .ends none
  else
    match v.stack with
    | [] => .ends none
    | f :: below =>
        match f.phase, f.node with
        | .start, _ => moveStart v f below c
        | .objColon, .obj props => moveColon (props[f.sub]?.map Member.value) v f below c
        | .objColon, .map items => moveColon (some items) v f below c
        | .arrFirst, .arr items minItems _ => moveFirst items minItems v f below c
        | .arrNext, .arr items minItems maxItems => moveNext items minItems maxItems v f below c
        | .seq, .seq props _ => moveSeq props v f below
        | .memFirst, .members props sentinel => moveMembers props sentinel v f below c
        | .memNext, .members props sentinel => moveMembers props sentinel v f below c
        | _, _ => .ends (feedByte v c)

/-- The frame that `push_value` adds, where there is room. -/
def Sval.pushed (v : Sval) (n : Snode) : Sval :=
  { v with lastEnum := none, stack := .start n :: v.stack }

/-- `feed_byte` with the number of calls that may stand in one another. -/
def feedCalls : Nat → Sval → UInt8 → Except Refusal (Sval × Bool)
  | 0, _, _ => .error .calls
  | calls + 1, v, c =>
      match move v c with
      | .ends (some result) => .ok result
      | .ends none => .error .grammar
      | .again v literal =>
          (feedCalls calls v c).map fun result => (result.1, result.2 && !literal)
      | .push v n reads =>
          if stackLimit ≤ v.stack.length then .error .stack
          else if reads then feedCalls calls (v.pushed n) c
          else .ok (v.pushed n, false)

/-- A round of `sval_feed`. -/
def roundCalls (calls : Nat) (v : Sval) (c : UInt8) : Except Refusal Sval :=
  match feedCalls calls v c with
  | .error refusal => .error refusal
  | .ok (v, false) => .ok v
  | .ok (v, true) =>
      match feedCalls calls v c with
      | .error refusal => .error refusal
      | .ok (v, false) => .ok v
      | .ok (_, true) => .error .twice

/-- `sval_feed`. -/
def svalFeedCalls (calls : Nat) : Bytes → Sval → Except Refusal Sval
  | [], v => .ok v
  | c :: s, v =>
      match roundCalls calls v c with
      | .error refusal => .error refusal
      | .ok v => svalFeedCalls calls s v

/-! ## The same answers -/

variable {v : Sval} {c : UInt8} {f : Sframe} {below : List Sframe}

theorem enter_nth_at (c : UInt8) (alts : List Snode) (i : Nat) (v : Sval) (f : Sframe)
    (below : List Sframe) :
    enterNth c alts i v f below =
      (alts[i]?).bind fun n => enter c n v { f with node := n } below := by
  induction alts generalizing i with
  | nil => rfl
  | cons n rest induction =>
      cases i with
      | zero => rfl
      | succ i => exact induction i

theorem open_nth_at (c : UInt8) (props : List Snode) (i : Nat) (v : Sval) (below : List Sframe) :
    openNth c props i v below = (props[i]?).bind fun n => enter c n v (.start n) below := by
  induction props generalizing i with
  | nil => rfl
  | cons n rest induction =>
      cases i with
      | zero => rfl
      | succ i => exact induction i

theorem member_nth_at (c : UInt8) (props : List (Member Snode)) (i : Nat) (again : Bool) (v : Sval)
    (below : List Sframe) :
    memberNth c props i again v below =
      (props[i]?).bind fun p =>
        if again then enter c p.value v (.start p.value) below
        else stay v (.start p.value) below := by
  induction props generalizing i with
  | nil => rfl
  | cons p rest induction =>
      cases i with
      | zero => rfl
      | succ i => exact induction i

theorem feed_lit_stack (v : Sval) (stack : List Sframe) (f : Sframe) (below : List Sframe) (c : UInt8) :
    feedLit { v with stack := stack } f below c = feedLit v f below c := by
  unfold feedLit
  cases f.node.isEnum with
  | false => rfl
  | true => rfl

mutual

/-- A value that begins does not look at the stack, only at the frames it is given. -/
theorem enter_stack (c : UInt8) : ∀ (n : Snode) (v : Sval) (stack : List Sframe) (f : Sframe)
    (below : List Sframe), enter c n { v with stack := stack } f below = enter c n v f below
  | .any objectRooted, v, stack, f, below => rfl
  | .null, v, stack, f, below => by
      unfold enter
      rw [feed_lit_stack]
      rfl
  | .bool, v, stack, f, below => by
      unfold enter
      rw [feed_lit_stack]
      rfl
  | .enum lits selects ws, v, stack, f, below => by
      unfold enter
      rw [feed_lit_stack]
      rfl
  | .num realMin realMax, v, stack, f, below => rfl
  | .int numMin numMax, v, stack, f, below => rfl
  | .str minItems maxItems pat, v, stack, f, below => rfl
  | .obj props, v, stack, f, below => rfl
  | .map items, v, stack, f, below => rfl
  | .arr items minItems maxItems, v, stack, f, below => rfl
  | .union alts ws, v, stack, f, below => by
      unfold enter
      rw [funext fun i => enter_nth_stack c alts i v stack f below]
      rfl
  | .cond alts ws, v, stack, f, below => by
      unfold enter
      rw [funext fun i => enter_nth_stack c alts i v stack f below]
      rfl
  | .seq props ws, v, stack, f, below => rfl
  | .members props sentinel, v, stack, f, below => rfl
  | .raw sentinel maxItems, v, stack, f, below => rfl

theorem enter_nth_stack (c : UInt8) : ∀ (alts : List Snode) (i : Nat) (v : Sval)
    (stack : List Sframe) (f : Sframe) (below : List Sframe),
    enterNth c alts i { v with stack := stack } f below = enterNth c alts i v f below
  | [], _, _, _, _, _ => rfl
  | n :: _, 0, v, stack, f, below => enter_stack c n v stack { f with node := n } below
  | _ :: rest, i + 1, v, stack, f, below => enter_nth_stack c rest i v stack f below

end

/-- The answer of `feed_byte` behind a move. -/
def Move.answer (c : UInt8) : Move → Option (Sval × Bool)
  | .ends result => result
  | .again v literal => (feedByte v c).map fun result => (result.1, result.2 && !literal)
  | .push v n reads =>
      if stackLimit ≤ v.stack.length then none
      else if reads then feedByte (v.pushed n) c
      else some (v.pushed n, false)

theorem feed_byte_start (going : v.done = false) (begins : f.phase = .start) :
    feedByte (v.setTop f below) c = enter c f.node v f below := by
  have same : feedByte (v.setTop f below) c = enter c f.node (v.setTop f below) f below := by
    unfold feedByte Sval.setTop
    dsimp only
    rw [going, begins]
    rfl
  exact same.trans (enter_stack c f.node v (f :: below) f below)

theorem feed_byte_pushed (going : v.done = false) (n : Snode) :
    feedByte (v.pushed n) c = enter c n { v with lastEnum := none } (.start n) v.stack :=
  feed_byte_start (v := { v with lastEnum := none }) (f := .start n) going rfl

theorem push_answer (going : v.done = false) (n : Snode) (reads : Bool) :
    (Move.push (v.setTop f below) n reads).answer c =
      (pushValue (v.setTop f below)).bind fun v =>
        if reads then enter c n v (.start n) (f :: below) else stay v (.start n) (f :: below) := by
  unfold Move.answer pushValue
  dsimp only
  by_cases full : stackLimit ≤ (v.setTop f below).stack.length
  · rw [if_pos full, if_pos full]
    rfl
  · rw [if_neg full, if_neg full, feed_byte_pushed (v := v.setTop f below) going n]
    rfl

theorem map_unmasked (answer : Option (Sval × Bool)) :
    (answer.map fun result => (result.1, result.2 && !false)) = answer := by
  cases answer with
  | none => rfl
  | some result => rw [Option.map_some, Bool.not_false, Bool.and_true]

theorem map_masked (answer : Option (Sval × Bool)) :
    (answer.map fun result => (result.1, result.2 && !true)) =
      answer.map fun (v, _) => (v, false) := by
  cases answer with
  | none => rfl
  | some result => rw [Option.map_some, Option.map_some, Bool.not_true, Bool.and_false]

theorem going_set_top (going : v.done = false) : ¬(v.setTop f below).done = true := by
  rw [Sval.setTop, going]
  exact Bool.false_ne_true

theorem feed_byte_lit (going : v.done = false) (lit : f.phase = .lit)
    (closed : ∀ objectRooted, f.node ≠ .any objectRooted) :
    feedByte (v.setTop f below) c = feedLit v f below c := by
  unfold feedByte
  rw [if_neg (going_set_top going)]
  obtain ⟨node, phase, sub, num, idx, litPos, sign, disc, esc, alive, numAbs⟩ := f
  cases lit
  cases node with
  | any objectRooted => exact absurd rfl (closed objectRooted)
  | _ => exact feed_lit_stack v _ _ below c

theorem feed_byte_raw_phase (going : v.done = false) {sentinel : Bytes} {maxItems : Option Nat}
    (node : f.node = .raw sentinel maxItems) (raw : f.phase = .raw) :
    feedByte (v.setTop f below) c = feedRaw sentinel maxItems v f below c := by
  unfold feedByte
  rw [if_neg (going_set_top going)]
  unfold Sval.setTop
  dsimp only
  rw [node, raw]
  rfl

theorem feed_byte_first_member (going : v.done = false) {props : List (Member Snode)}
    {sentinel : Bytes} (node : f.node = .members props sentinel) (first : f.phase = .memFirst) :
    feedByte (v.setTop f below) c = feedMembers props sentinel v f below c := by
  unfold feedByte
  rw [if_neg (going_set_top going)]
  unfold Sval.setTop
  dsimp only
  rw [node, first]
  rfl

/-- Blanks that mean nothing stand in front of every value but a list of members. -/
theorem enter_blank {n : Snode} (blank : (isWs c && !n.wsSignificant) = true) :
    enter c n v f below = leadingWs v f below := by
  have ws : isWs c = true := (Bool.and_eq_true_iff.mp blank).1
  unfold enter
  cases n with
  | members props sentinel =>
      rw [Snode.wsSignificant, Bool.not_true, Bool.and_false] at blank
      cases blank
  | enum lits selects significant => exact if_pos blank
  | union alts significant => exact if_pos blank
  | cond alts significant => exact if_pos blank
  | seq props significant => exact if_pos blank
  | _ => exact if_pos ws

theorem enter_filled {n : Snode} (filled : ¬(isWs c && !n.wsSignificant) = true)
    (plain : n.wsSignificant = false) : ¬isWs c = true := by
  rw [plain, Bool.not_false, Bool.and_true] at filled
  exact filled

theorem literal_answer (going : v.done = false) (alive : List Nat)
    (closed : ∀ objectRooted, f.node ≠ .any objectRooted) :
    (Move.again (v.setTop { f with phase := .lit, litPos := 0, sub := 0, alive := alive } below)
        true).answer c =
      (feedLit v { f with phase := .lit, litPos := 0, sub := 0, alive := alive } below c).map
        fun (v, _) => (v, false) := by
  have read : feedByte
      (v.setTop { f with phase := .lit, litPos := 0, sub := 0, alive := alive } below) c =
      feedLit v { f with phase := .lit, litPos := 0, sub := 0, alive := alive } below c :=
    feed_byte_lit going rfl closed
  rw [Move.answer, map_masked, read]

theorem instead_answer (going : v.done = false) (begins : f.phase = .start) (alts : List Snode)
    (choice : Option Nat) :
    (choice.bind fun i => enterNth c alts i v f below) =
      (match choice.bind fun i => alts[i]? with
        | some n => Move.again (v.setTop { f with node := n } below) false
        | none => .ends none).answer c := by
  cases choice with
  | none => rfl
  | some i =>
      rw [Option.bind_some, Option.bind_some, enter_nth_at]
      cases alts[i]? with
      | none => rfl
      | some n =>
          rw [Move.answer, map_unmasked]
          exact (feed_byte_start (f := { f with node := n }) going begins).symm

theorem members_answer (going : v.done = false) (props : List (Member Snode)) (sentinel : Bytes) :
    feedMembers props sentinel v f below c = (moveMembers props sentinel v f below c).answer c := by
  unfold feedMembers moveMembers
  cases matched : matchMember props sentinel f c with
  | none => rfl
  | some found =>
      cases found with
      | going f => rfl
      | picked which again =>
          rw [Option.bind_some]
          dsimp only
          by_cases last : which = props.length
          · rw [if_pos last, if_pos last]
            rfl
          · rw [if_neg last, if_neg last]
            cases place : props[which]? with
            | none =>
                dsimp only
                rw [funext fun v => member_nth_at c props which again v _, place]
                exact Option.bind_fun_none _
            | some p =>
                dsimp only
                rw [push_answer going, funext fun v => member_nth_at c props which again v _, place]
                rfl

theorem start_answer (going : v.done = false) (begins : f.phase = .start) :
    enter c f.node v f below = (moveStart v f below c).answer c := by
  obtain ⟨node, phase, sub, num, idx, litPos, sign, disc, esc, alive, numAbs⟩ := f
  unfold moveStart
  dsimp only
  by_cases blank : (isWs c && !node.wsSignificant) = true
  · rw [if_pos blank, enter_blank blank]
    rfl
  · rw [if_neg blank]
    cases node with
    | null =>
        exact (if_neg (enter_filled blank rfl)).trans (literal_answer going [0] (by simp)).symm
    | bool =>
        exact (if_neg (enter_filled blank rfl)).trans (literal_answer going [0, 1] (by simp)).symm
    | enum lits selects ws =>
        exact (if_neg blank).trans (literal_answer going (List.range lits.length) (by simp)).symm
    | union alts ws => exact (if_neg blank).trans (instead_answer going begins alts (pickAlt alts c))
    | cond alts ws => exact (if_neg blank).trans (instead_answer going begins alts _)
    | seq props ws =>
        cases props with
        | nil => exact if_neg blank
        | cons first rest =>
            dsimp only
            rw [push_answer going]
            exact if_neg blank
    | members props sentinel =>
        rw [Move.answer, map_unmasked, feed_byte_first_member going rfl rfl]
        rfl
    | raw sentinel maxItems =>
        rw [Move.answer, map_unmasked, feed_byte_raw_phase going rfl rfl]
        exact if_neg (enter_filled blank rfl)
    | _ => rfl

theorem colon_answer (going : v.done = false) (value : Option Snode)
    (props : List (Member Snode)) (colon_ : f.phase = .objColon)
    (node : f.node = .obj props ∧ value = props[f.sub]?.map Member.value ∨
      ∃ items, f.node = .map items ∧ value = some items) :
    feedObj v f below c = (moveColon value v f below c).answer c := by
  have phase : feedObj v f below c =
      if isWs c then stay v f below
      else if c ≠ colon then none
      else (pushValue (v.setTop { f with phase := .objNext } below)).bind fun v =>
        value.bind fun n => stay v (.start n) ({ f with phase := .objNext } :: below) := by
    unfold feedObj
    rw [colon_]
    rcases node with ⟨node, rfl⟩ | ⟨items, node, rfl⟩
    · rw [node]
    · rw [node]
  rw [phase]
  unfold moveColon
  split
  · rfl
  split
  · rfl
  cases value with
  | none => exact Option.bind_fun_none _
  | some n => exact (push_answer going n false).symm

theorem first_answer (going : v.done = false) (items : Snode) (minItems : Nat)
    (maxItems : Option Nat) (first : f.phase = .arrFirst) :
    feedArr items minItems maxItems v f below c = (moveFirst items minItems v f below c).answer c := by
  unfold feedArr moveFirst
  rw [if_pos first]
  split
  · rfl
  split
  · rfl
  · exact (push_answer going items true).symm

theorem next_answer (going : v.done = false) (items : Snode) (minItems : Nat)
    (maxItems : Option Nat) (next : f.phase = .arrNext) :
    feedArr items minItems maxItems v f below c =
      (moveNext items minItems maxItems v f below c).answer c := by
  have behind : ¬f.phase = .arrFirst := by
    rw [next]
    exact fun same => by cases same
  unfold feedArr moveNext
  by_cases blank : isWs c = true
  · rw [if_pos blank, if_pos blank]
    rfl
  rw [if_neg blank, if_neg blank, if_neg behind]
  split
  · split
    · rfl
    · exact (push_answer going items false).symm
  split
  · rfl
  · rfl

theorem seq_answer (going : v.done = false) (props : List Snode) :
    feedSeq props v f below c = (moveSeq props v f below).answer c := by
  unfold feedSeq moveSeq
  by_cases left : props.length ≤ f.idx
  · rw [if_pos left, List.getElem?_eq_none left]
    rfl
  · rw [if_neg left, List.getElem?_eq_getElem (not_le.mp left)]
    dsimp only
    rw [push_answer going, funext fun v => open_nth_at c props f.idx v _,
      List.getElem?_eq_getElem (not_le.mp left)]
    rfl

/-- A move and the calls behind it answer as `feed_byte` does. -/
theorem feed_byte_move (v : Sval) (c : UInt8) : feedByte v c = (move v c).answer c := by
  unfold move
  cases going : v.done with
  | true =>
      unfold feedByte
      rw [if_pos going]
      rfl
  | false =>
      have open_ : ¬v.done = true := by
        rw [going]
        exact Bool.false_ne_true
      rw [if_neg Bool.false_ne_true]
      cases stack : v.stack with
      | nil =>
          unfold feedByte
          rw [if_neg open_, stack]
          rfl
      | cons f below =>
          have top : v = v.setTop f below := by rw [Sval.setTop, ← stack]
          dsimp only
          split
          next begins =>
            rw [← start_answer going begins]
            exact (congrArg (fun v => feedByte v c) top).trans (feed_byte_start going begins)
          next props phase node =>
            rw [← colon_answer going _ props phase (Or.inl ⟨node, rfl⟩)]
            unfold feedByte
            rw [if_neg open_, stack]
            dsimp only
            rw [phase, node]
          next items phase node =>
            rw [← colon_answer going _ [] phase (Or.inr ⟨items, node, rfl⟩)]
            unfold feedByte
            rw [if_neg open_, stack]
            dsimp only
            rw [phase, node]
          next items minItems maxItems phase node =>
            rw [← first_answer going items minItems maxItems phase]
            unfold feedByte
            rw [if_neg open_, stack]
            dsimp only
            rw [phase, node]
          next items minItems maxItems phase node =>
            rw [← next_answer going items minItems maxItems phase]
            unfold feedByte
            rw [if_neg open_, stack]
            dsimp only
            rw [phase, node]
          next props ws phase node =>
            rw [← seq_answer going]
            unfold feedByte
            rw [if_neg open_, stack]
            dsimp only
            rw [phase, node]
          next props sentinel phase node =>
            rw [← members_answer going]
            unfold feedByte
            rw [if_neg open_, stack]
            dsimp only
            rw [phase, node]
          next props sentinel phase node =>
            rw [← members_answer going]
            unfold feedByte
            rw [if_neg open_, stack]
            dsimp only
            rw [phase, node]
          next => rfl

/-- With calls enough, `feed_byte` answers. -/
theorem feed_calls_same (calls : Nat) (v : Sval) (c : UInt8)
    (enough : feedCalls calls v c ≠ .error .calls) : (feedCalls calls v c).toOption = feedByte v c := by
  induction calls generalizing v with
  | zero => exact absurd rfl enough
  | succ calls induction =>
      rw [feed_byte_move]
      unfold feedCalls at enough ⊢
      cases moved : move v c with
      | ends result => cases result <;> rfl
      | again w literal =>
          rw [moved] at enough
          dsimp only at enough ⊢
          have inner : feedCalls calls w c ≠ .error .calls := by
            intro few
            rw [few] at enough
            exact enough rfl
          rw [Move.answer, ← induction w inner]
          cases feedCalls calls w c <;> rfl
      | push w n reads =>
          rw [moved] at enough
          dsimp only at enough ⊢
          unfold Move.answer
          dsimp only
          by_cases full : stackLimit ≤ w.stack.length
          · rw [if_pos full, if_pos full]
            rfl
          · rw [if_neg full] at enough
            rw [if_neg full, if_neg full]
            cases reads with
            | true => exact induction _ enough
            | false => rfl

end GridcoreRunner.Schema
