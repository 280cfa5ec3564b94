import GridcoreRunner.Stream.Speech

/-!
# Groups of pieces

What is said falls into groups, one for an item or a block.
-/

namespace GridcoreRunner.Stream

set_option autoImplicit false

open GridcoreRunner.Json

structure Group where
  kind : Kind
  pieces : List Bytes
deriving DecidableEq, Repr

structure Groups where
  current : Option Group
  closed : List Group
deriving DecidableEq, Repr

def Groups.none_ : Groups := { current := none, closed := [] }

def Groups.close (groups : Groups) : Groups :=
  { current := none, closed := groups.closed ++ groups.current.toList }

/-- The group of a kind goes on while it is the current one. -/
def Groups.turnTo (groups : Groups) (kind : Kind) : Groups :=
  match groups.current with
  | some group =>
      if group.kind = kind then groups
      else { groups.close with current := some ⟨kind, []⟩ }
  | none => { groups with current := some ⟨kind, []⟩ }

def Groups.add (groups : Groups) (piece : Bytes) : Groups :=
  { groups with current := groups.current.map fun group =>
      { group with pieces := group.pieces ++ [piece] } }

def Groups.step (groups : Groups) : Said → Groups
  | .text reasoning piece => (groups.turnTo (channelKind reasoning)).add piece
  | .callBegin _ => groups.turnTo .functionCall
  | .callArgs piece => (groups.turnTo .functionCall).add piece
  | .callEnd => groups.close

def groupsOf (said : List Said) : Groups := said.foldl Groups.step Groups.none_

/-- The groups of a whole turn. -/
def turnGroups (events : List Event) : List Group := (groupsOf (saidOf events)).close.closed

theorem groups_of_append (said more : List Said) :
    groupsOf (said ++ more) = more.foldl Groups.step (groupsOf said) := by
  rw [groupsOf, List.foldl_append]
  rfl

theorem groups_of_concat (said : List Said) (one : Said) :
    groupsOf (said ++ [one]) = (groupsOf said).step one := groups_of_append said [one]

/-! ## Closed groups stay -/

theorem close_grows (groups : Groups) : groups.closed <+: groups.close.closed :=
  List.prefix_append _ _

theorem turn_to_grows (groups : Groups) (kind : Kind) :
    groups.closed <+: (groups.turnTo kind).closed := by
  rw [Groups.turnTo]
  cases groups.current with
  | none => exact List.prefix_refl _
  | some group =>
      simp only
      split_ifs
      · exact List.prefix_refl _
      · exact close_grows groups

theorem step_grows (groups : Groups) (one : Said) :
    groups.closed <+: (groups.step one).closed := by
  cases one with
  | text reasoning piece => exact turn_to_grows groups _
  | callBegin name => exact turn_to_grows groups _
  | callArgs piece => exact turn_to_grows groups _
  | callEnd => exact close_grows groups

theorem fold_grows (groups : Groups) (said : List Said) :
    groups.closed <+: (said.foldl Groups.step groups).closed := by
  induction said generalizing groups with
  | nil => exact List.prefix_refl _
  | cons one said induction => exact (step_grows groups one).trans (induction _)

/-! ## Groups of a kind -/

/-- The pieces of a kind, group by group. -/
def Groups.spoken (groups : Groups) (kind : Kind) : List Bytes :=
  (groups.close.closed.filter fun group => group.kind = kind).flatMap Group.pieces

@[simp] theorem spoken_close (groups : Groups) (kind : Kind) :
    groups.close.spoken kind = groups.spoken kind := by
  simp [Groups.spoken, Groups.close]

/-- A group without pieces says nothing. -/
theorem filter_silent (kind other : Kind) :
    ((([⟨other, []⟩] : List Group).filter fun group => group.kind = kind).flatMap Group.pieces) =
      [] := by
  by_cases here : other = kind
  · simp [here]
  · simp [here]

theorem spoken_turn (groups : Groups) (kind other : Kind) :
    (groups.turnTo other).spoken kind = groups.spoken kind := by
  have silent := filter_silent kind other
  rw [Groups.turnTo]
  cases same : groups.current with
  | none =>
      simp only [Groups.spoken, Groups.close, same, Option.toList_some, Option.toList_none,
        List.append_nil, List.filter_append, List.flatMap_append, silent]
  | some group =>
      simp only
      split_ifs
      · rfl
      · simp only [Groups.spoken, Groups.close, same, Option.toList_some, List.filter_append,
          List.flatMap_append, silent, List.append_nil]

theorem spoken_add {groups : Groups} {group : Group} (current : groups.current = some group)
    (piece : Bytes) (kind : Kind) :
    (groups.add piece).spoken kind =
      groups.spoken kind ++ if group.kind = kind then [piece] else [] := by
  by_cases here : group.kind = kind
  · simp [Groups.spoken, Groups.close, Groups.add, current, here, List.filter_append]
  · simp [Groups.spoken, Groups.close, Groups.add, current, here, List.filter_append]

/-- The current group after a turn to a kind. -/
theorem turn_to_current (groups : Groups) (kind : Kind) :
    ∃ group, (groups.turnTo kind).current = some group ∧ group.kind = kind := by
  rw [Groups.turnTo]
  cases same : groups.current with
  | none => exact ⟨_, rfl, rfl⟩
  | some group =>
      simp only
      split_ifs with here
      · exact ⟨group, same, here⟩
      · exact ⟨_, rfl, rfl⟩

theorem spoken_step (groups : Groups) (one : Said) (kind : Kind) :
    (groups.step one).spoken kind = groups.spoken kind ++ (one.piece kind).toList := by
  cases one with
  | text reasoning piece =>
      obtain ⟨group, current, named⟩ := turn_to_current groups (channelKind reasoning)
      rw [Groups.step, spoken_add current, spoken_turn, named, Said.piece]
      split_ifs <;> rfl
  | callBegin name =>
      rw [Groups.step, spoken_turn]
      simp [Said.piece]
  | callArgs piece =>
      obtain ⟨group, current, named⟩ := turn_to_current groups .functionCall
      rw [Groups.step, spoken_add current, spoken_turn, named, Said.piece]
      cases kind <;> rfl
  | callEnd =>
      rw [Groups.step, spoken_close]
      simp [Said.piece]

theorem spoken_groups_of (said : List Said) (kind : Kind) :
    (groupsOf said).spoken kind = pieces kind said := by
  induction said using List.reverseRecOn with
  | nil => rfl
  | append_singleton said one induction =>
      rw [groups_of_concat, spoken_step, induction, pieces_append]
      rfl

/-- A text group cuts no character. -/
theorem text_group_none_cut {events : List Event} {group : Group}
    (inside : group ∈ turnGroups events) {reasoning : Bool}
    (named : group.kind = channelKind reasoning) : NoneCut group.pieces := by
  have whole := (said_text reasoning events).1
  rw [← spoken_groups_of, Groups.spoken] at whole
  have here : group ∈ (groupsOf (saidOf events)).close.closed.filter
      fun group => group.kind = channelKind reasoning := by
    rw [List.mem_filter]
    exact ⟨inside, by simp [named]⟩
  obtain ⟨front, back, same⟩ := List.append_of_mem here
  rw [same, List.flatMap_append, List.flatMap_cons, ← List.append_assoc] at whole
  exact none_cut_infix whole

end GridcoreRunner.Stream
