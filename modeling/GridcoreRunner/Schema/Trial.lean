import GridcoreRunner.Json.Trial
import GridcoreRunner.Schema.InPlace

/-!
# A trial sees what a full copy would

No function of the schema validator reads a slot above `depth`, the spelling past its
terminator, or the dead part of the generic machine. So two structs with the same live
part answer alike for ever, and the short copy of `sval_trial` is as good as a full
one.
-/

namespace GridcoreRunner.Schema.InPlace

set_option autoImplicit false

open GridcoreRunner.Json GridcoreRunner.Buffer GridcoreRunner.Relational

/-- The same slots below the same depth. -/
structure SameSlots (stack : Nat → Sframe) (depth : Nat) (stack' : Nat → Sframe) (depth' : Nat) :
    Prop where
  fits : depth ≤ stackLimit
  slots : ∀ i < depth, stack i = stack' i
  depth : depth = depth'

/-- The same spelling, with the byte behind it, which is its terminator. -/
structure SameNumber (text : Nat → UInt8) (len : Nat) (text' : Nat → UInt8) (len' : Nat) : Prop where
  fits : len < numTextSize
  terminated : len ≠ 0 → text len = 0
  text : ∀ i ≤ len, text i = text' i
  len : len = len'

/-- The same live part. -/
structure SameLive (a b : Sval) : Prop where
  frames : SameSlots a.stack a.depth b.stack b.depth
  filled : a.done = false → 0 < a.depth
  done : a.done = b.done
  lastEnum : a.lastEnum = b.lastEnum
  any : Json.InPlace.SameLive a.any b.any
  number : SameNumber a.numText a.numLen b.numText b.numLen

/-- The same live part, with a frame on top. -/
structure SameOpen (a b : Sval) : Prop where
  live : SameLive a b
  filled : 0 < a.depth

abbrev Same {α : Type} (x y : α × Sval) : Prop := Outcomes (fun _ => SameLive) x y

/-- A function of the validator answers alike, and keeps the live parts the same. -/
abbrev Keeps {α : Type} (program : Sval → α × Sval) : Prop :=
  Agree SameLive program (fun _ => SameLive)

/-- A function that needs a frame on top. -/
abbrev Steps (program : Sval → Fed × Sval) : Prop :=
  Agree SameOpen program (fun _ => SameLive)

section Live

variable {a b : Sval}

/-- A slot is written, and the frames above it go. -/
theorem SameSlots.write {stack stack' : Nat → Sframe} {depth depth' slot : Nat} (f : Sframe)
    (same : SameSlots stack depth stack' depth') (within : slot < depth) :
    SameSlots (Function.update stack slot f) (slot + 1) (Function.update stack' slot f) (slot + 1) := by
  constructor
  · exact le_trans within same.fits
  · intro i low
    by_cases here : i = slot
    · subst here
      simp only [Function.update_self]
    · simp only [Function.update_of_ne here]
      exact same.slots i (by omega)
  · rfl

/-- A slot is written, and every frame stays. -/
theorem SameSlots.overwrite {stack stack' : Nat → Sframe} {depth depth' : Nat} (slot : Nat)
    (f : Sframe) (same : SameSlots stack depth stack' depth') :
    SameSlots (Function.update stack slot f) depth (Function.update stack' slot f) depth' := by
  constructor
  · exact same.fits
  · intro i low
    by_cases here : i = slot
    · subst here
      simp only [Function.update_self]
    · simp only [Function.update_of_ne here]
      exact same.slots i low
  · exact same.depth

theorem SameSlots.lower {stack stack' : Nat → Sframe} {depth depth' : Nat} {lower : Nat}
    (same : SameSlots stack depth stack' depth') (below : lower ≤ depth) :
    SameSlots stack lower stack' lower := by
  constructor
  · exact below.trans same.fits
  · intro i low
    exact same.slots i (Nat.lt_of_lt_of_le low below)
  · rfl

theorem SameOpen.top (same : SameOpen a b) : top a = top b := by
  unfold InPlace.top
  rw [← same.live.frames.depth]
  exact same.live.frames.slots _ (Nat.sub_lt same.filled Nat.one_pos)

theorem SameOpen.set_top (same : SameOpen a b) (f : Sframe) : SameOpen (setTop f a) (setTop f b) := by
  have frames := same.live.frames.overwrite (a.depth - 1) f
  constructor
  · constructor
    · unfold setTop
      rw [← same.live.frames.depth] at frames ⊢
      exact frames
    · exact same.live.filled
    · exact same.live.done
    · exact same.live.lastEnum
    · exact same.live.any
    · exact same.live.number
  · exact same.filled

theorem SameOpen.last_enum (same : SameOpen a b) (chosen : Option Nat) :
    SameOpen { a with lastEnum := chosen } { b with lastEnum := chosen } :=
  ⟨⟨same.live.frames, same.live.filled, same.live.done, rfl, same.live.any, same.live.number⟩,
    same.filled⟩

theorem SameOpen.set_any (same : SameOpen a b) {any any' : Json.InPlace.Jsonv}
    (sameAny : Json.InPlace.SameLive any any') :
    SameOpen { a with any := any } { b with any := any' } :=
  ⟨⟨same.live.frames, same.live.filled, same.live.done, same.live.lastEnum, sameAny,
    same.live.number⟩, same.filled⟩

/-- `frame_done` writes below the frame that ends, or ends the root value. -/
theorem settle_same (depth : Nat) (child : Snode) (same : SameLive a b) (below : depth < a.depth) :
    SameLive (settle depth child a) (settle depth child b) := by
  induction depth generalizing child a b with
  | zero =>
      constructor
      · exact same.frames.lower (Nat.zero_le _)
      · intro running
        cases running
      · rfl
      · exact same.lastEnum
      · exact same.any
      · exact same.number
  | succ depth ih =>
      have within : depth < a.depth := Nat.lt_of_succ_lt below
      have owner : a.stack depth = b.stack depth := same.frames.slots depth within
      have advanced : ∀ f : Sframe,
          SameLive { a with stack := Function.update a.stack depth f, depth := depth + 1 }
            { b with stack := Function.update b.stack depth f, depth := depth + 1 } := by
        intro f
        exact ⟨same.frames.write f within, fun _ => Nat.succ_pos depth, same.done, same.lastEnum,
          same.any, same.number⟩
      have passed : ∀ (f : Sframe) (sequence : Snode),
          SameLive (settle depth sequence { a with stack := Function.update a.stack depth f })
            (settle depth sequence { b with stack := Function.update b.stack depth f }) := by
        intro f sequence
        apply ih
        · exact ⟨same.frames.overwrite depth f, same.filled, same.done, same.lastEnum, same.any,
            same.number⟩
        · exact within
      simp only [same.lastEnum] at advanced passed
      unfold settle
      rw [owner, same.lastEnum]
      generalize b.stack depth = f
      dsimp only
      split
      · exact advanced _
      · exact advanced _
      · split
        · exact passed _ _
        · exact advanced _
      · exact advanced _
      · exact advanced _

theorem SameOpen.frame_done (same : SameOpen a b) : SameLive (frameDone a) (frameDone b) := by
  unfold frameDone
  rw [← same.top, ← same.live.frames.depth]
  exact settle_same _ _ same.live (Nat.sub_lt same.filled Nat.one_pos)

theorem SameOpen.leave (same : SameOpen a b) (again : Bool) :
    Same (leave again a) (leave again b) :=
  ⟨rfl, same.frame_done⟩

theorem SameOpen.stay (same : SameOpen a b) (kept : Bool) (f : Sframe) :
    Same (stay kept f a) (stay kept f b) :=
  ⟨rfl, (same.set_top f).live⟩

theorem SameOpen.answer (same : SameOpen a b) {α : Type} (answer : α) :
    Same (answer, a) (answer, b) :=
  ⟨rfl, same.live⟩

theorem SameOpen.leading_ws (same : SameOpen a b) : Same (leadingWs a) (leadingWs b) := by
  unfold leadingWs
  rw [same.live.frames.depth]
  exact same.answer _

/-- A pushed frame is written before `depth` names it. -/
theorem SameOpen.push_value (same : SameOpen a b) (n : Snode) :
    Outcomes (fun _ => SameOpen) (pushValue n a) (pushValue n b) := by
  have depth := same.live.frames.depth
  unfold pushValue
  rw [← depth]
  split
  · exact ⟨rfl, same⟩
  next room =>
    have frames : SameSlots (Function.update a.stack a.depth (.start n)) (a.depth + 1)
        (Function.update b.stack a.depth (.start n)) (a.depth + 1) := by
      constructor
      · exact Nat.lt_of_not_le room
      · intro i low
        by_cases here : i = a.depth
        · subst here
          simp only [Function.update_self]
        · simp only [Function.update_of_ne here]
          exact same.live.frames.slots i (by omega)
      · rfl
    refine ⟨rfl, ⟨frames, fun _ => Nat.succ_pos _, same.live.done, rfl, same.live.any,
      same.live.number⟩, Nat.succ_pos _⟩

end Live

/-! ## Scalars -/

theorem feed_any_steps (c : UInt8) : Steps (feedAny c) := by
  intro a b same
  have fed := Json.InPlace.jsonv_feed_keeps [c] _ _ same.live.any
  have moved := same.set_any fed.2
  unfold feedAny
  dsimp only
  rw [← same.live.any.done, ← fed.1, ← moved.live.any.done, ← Json.InPlace.value_end_same fed.2]
  apply outcomes_ite
  · exact same.leave true
  apply outcomes_ite
  · apply outcomes_ite
    · exact moved.leave false
    · exact moved.answer Fed.kept
  apply outcomes_ite
  · exact moved.leave true
  · exact moved.answer Fed.refused

theorem feed_lit_steps (c : UInt8) : Steps (feedLit c) := by
  intro a b same
  have finish : ∀ (i : Nat) (isEnum : Bool) (again : Bool),
      Same (leave again (if isEnum then { a with lastEnum := some i } else a))
        (leave again (if isEnum then { b with lastEnum := some i } else b)) := by
    intro i isEnum again
    cases isEnum with
    | false => exact same.leave again
    | true => exact (same.last_enum (some i)).leave again
  unfold feedLit
  dsimp only
  rw [same.top]
  apply outcomes_ite
  · split
    · exact finish _ _ false
    · exact finish _ _ true
    · exact same.answer Fed.refused
  · exact same.stay true _

theorem feed_str_steps (minItems : Nat) (maxItems : Option Nat) (pat : List PatSeg) (c : UInt8) :
    Steps (feedStr minItems maxItems pat c) := by
  intro a b same
  unfold feedStr
  dsimp only
  rw [same.top]
  apply outcomes_ite
  · exact same.answer Fed.refused
  apply outcomes_ite
  · exact same.answer Fed.refused
  split
  · exact same.stay false _
  · apply outcomes_ite
    · exact same.stay false _
    · exact (same.set_top _).leave false
  · apply outcomes_ite
    · exact same.stay _ _
    · exact same.stay true _

theorem feed_int_steps (numMin numMax : Option ℤ) (c : UInt8) : Steps (feedInt numMin numMax c) := by
  intro a b same
  unfold feedInt
  dsimp only
  rw [same.top]
  apply outcomes_ite
  · exact same.stay false _
  apply outcomes_ite
  · exact (same.set_top _).leave true
  · exact same.stay true _

/-- The next byte of the number replaces the terminator, and a terminator follows. -/
theorem SameNumber.put {text text' : Nat → UInt8} {len len' : Nat} (c : UInt8)
    (same : SameNumber text len text' len') (room : len + 1 < numTextSize) :
    SameNumber (Function.update (Function.update text len c) (len + 1) 0) (len + 1)
      (Function.update (Function.update text' len c) (len + 1) 0) (len + 1) := by
  constructor
  · exact room
  · intro _
    exact Function.update_self _ _ _
  · intro i low
    by_cases last : i = len + 1
    · subst last
      simp only [Function.update_self]
    by_cases here : i = len
    · subst here
      simp only [Function.update_of_ne last, Function.update_self]
    · simp only [Function.update_of_ne last, Function.update_of_ne here]
      exact same.text i (by omega)
  · rfl

theorem SameNumber.restart {text text' : Nat → UInt8} {len len' : Nat}
    (same : SameNumber text len text' len') : SameNumber text 0 text' 0 := by
  constructor
  · exact Nat.lt_of_le_of_lt (Nat.zero_le _) same.fits
  · intro filled
    exact absurd rfl filled
  · intro i low
    exact same.text i (low.trans (Nat.zero_le _))
  · rfl

theorem number_put_same (c : UInt8) {a b : Sval} (same : SameOpen a b) :
    Same (numberPut c a) (numberPut c b) := by
  have number := same.live.number
  unfold numberPut
  rw [← number.len]
  split
  · exact same.answer false
  next room =>
    exact ⟨rfl, same.live.frames, same.live.filled, same.live.done, same.live.lastEnum,
      same.live.any, number.put c (Nat.lt_of_not_le room)⟩

theorem put_digit_same (f : Sframe) (c : UInt8) {a b : Sval} (same : SameOpen a b) :
    Same (putDigit f c a) (putDigit f c b) :=
  outcomes_map (fun put : Bool => if put then Fed.kept else Fed.refused)
    (number_put_same c (same.set_top f))

/-- A string in the buffer ends at its terminator. -/
theorem spelling_ends {text : Nat → UInt8} {len : Nat} (fits : len < numTextSize)
    (terminated : text len = 0) :
    ((List.range numTextSize).map text).takeWhile (fun c => c != 0) =
      ((List.range len).map text).takeWhile fun c => c != 0 := by
  obtain ⟨rest, size⟩ : ∃ rest, numTextSize = len + (rest + 1) :=
    ⟨numTextSize - len - 1, by omega⟩
  have stops : ((List.range (rest + 1)).map fun i => text (len + i)).takeWhile
      (fun c => c != 0) = [] := by
    rw [List.range_succ_eq_map, List.map_cons, Nat.add_zero, terminated]
    rfl
  rw [size, List.range_add, List.map_append, List.map_map, List.takeWhile_append]
  split
  next whole =>
    have front := (List.takeWhile_prefix fun c : UInt8 => c != 0).eq_of_length whole
    rw [front]
    exact (congrArg _ stops).trans (List.append_nil _)
  · rfl

theorem spelling_same {a b : Sval} (same : SameLive a b) (filled : a.numLen ≠ 0) :
    spelling a = spelling b := by
  have number := same.number
  have ends := number.terminated filled
  have ends' : b.numText a.numLen = 0 := (number.text _ le_rfl).symm.trans ends
  unfold spelling
  rw [spelling_ends number.fits ends, spelling_ends number.fits ends']
  congr 1
  apply List.map_congr_left
  intro i low
  exact number.text i (Nat.le_of_lt (List.mem_range.mp low))

theorem in_bounds_same (realMin realMax : Option ℚ) (f : Sframe) {a b : Sval} (same : SameLive a b) :
    numberInBounds realMin realMax f a = numberInBounds realMin realMax f b := by
  unfold numberInBounds
  rw [← same.number.len]
  by_cases filled : a.numLen = 0
  · simp only [filled, ne_eq, not_true_eq_false, decide_false, Bool.and_false, Bool.false_and]
  · rw [spelling_same same filled]

theorem feed_num_steps (realMin realMax : Option ℚ) (c : UInt8) :
    Steps (feedNum realMin realMax c) := by
  intro a b same
  unfold feedNum
  dsimp only
  rw [same.top, in_bounds_same _ _ _ same.live]
  split
  · apply outcomes_ite
    · exact same.leave true
    · exact same.answer Fed.refused
  · exact put_digit_same _ c same

theorem feed_raw_steps (sentinel : Bytes) (maxItems : Option Nat) (c : UInt8) :
    Steps (feedRaw sentinel maxItems c) := by
  intro a b same
  unfold feedRaw
  dsimp only
  rw [same.top]
  apply outcomes_ite
  · apply outcomes_ite
    · exact same.leave false
    · exact same.stay true _
  · apply outcomes_ite
    · exact same.answer Fed.refused
    · exact same.stay true _

/-! ## Members -/

theorem feed_key_steps (props : List (Member Snode)) (c : UInt8) : Steps (feedKey props c) := by
  intro a b same
  unfold feedKey
  dsimp only
  rw [same.top]
  apply outcomes_ite
  · split
    · exact same.stay true _
    · exact same.answer Fed.refused
  · apply outcomes_ite
    · exact same.answer Fed.refused
    · exact same.stay true _

theorem feed_map_key_steps (c : UInt8) : Steps (feedMapKey c) := by
  intro a b same
  unfold feedMapKey
  dsimp only
  rw [same.top]
  split
  · exact same.stay false _
  · exact same.stay true _
  · exact same.stay true _

/-! ## A value begins -/

theorem start_number_same {a b : Sval} (f : Sframe) (same : SameOpen a b) :
    SameOpen (startNumber f a) (startNumber f b) := by
  have restarted : SameOpen { a with numLen := 0 } { b with numLen := 0 } :=
    ⟨⟨same.live.frames, same.live.filled, same.live.done, same.live.lastEnum, same.live.any,
      same.live.number.restart⟩, same.filled⟩
  exact restarted.set_top _

theorem start_lit_steps (alive : List Nat) (c : UInt8) : Steps (startLit alive c) := by
  intro a b same
  have tops := same.top
  unfold startLit
  dsimp only
  rw [tops]
  exact outcomes_map (fun fed : Fed => if fed = .refused then Fed.refused else Fed.kept)
    (feed_lit_steps c _ _ (same.set_top _))

theorem frame_choice_same {a b : Sval} {slot : Nat}
    (frames : SameSlots a.stack a.depth b.stack b.depth) (within : slot < a.depth) :
    frameChoice slot a = frameChoice slot b := by
  unfold frameChoice
  rw [frames.slots slot within, frames.slots (slot - 1) (by omega)]

theorem pushed_steps {program : Sval → Fed × Sval} (n : Snode) (steps : Steps program) :
    Steps (fun v => if (pushValue n v).1 then program (pushValue n v).2 else refuse (pushValue n v).2) := by
  intro a b same
  have pushed := same.push_value n
  dsimp only
  rw [← pushed.1]
  apply outcomes_ite
  · exact steps _ _ pushed.2
  · exact pushed.2.answer Fed.refused

mutual

/-- Over the node: an alternative, an element and a member are smaller than the node
that holds them. -/
theorem enter_steps (c : UInt8) : ∀ n : Snode, Steps (enter c n)
  | .any objectRooted => by
      intro a b same
      have any : Json.InPlace.SameLive
          (if objectRooted then Json.InPlace.jsonvInit a.any else Json.InPlace.jsonvInitAny a.any)
          (if objectRooted then Json.InPlace.jsonvInit b.any else Json.InPlace.jsonvInitAny b.any) := by
        cases objectRooted with
        | false => exact Json.InPlace.init_any_same _ _
        | true => exact Json.InPlace.init_same _ _
      unfold enter
      dsimp only
      rw [same.top]
      apply outcomes_ite
      · exact same.leading_ws
      · exact feed_any_steps c _ _ ((same.set_any any).set_top _)
  | .null => by
      intro a b same
      unfold enter
      apply outcomes_ite
      · exact same.leading_ws
      · exact start_lit_steps _ c a b same
  | .bool => by
      intro a b same
      unfold enter
      apply outcomes_ite
      · exact same.leading_ws
      · exact start_lit_steps _ c a b same
  | .enum lits selects ws => by
      intro a b same
      unfold enter
      apply outcomes_ite
      · exact same.leading_ws
      · exact start_lit_steps _ c a b same
  | .num realMin realMax => by
      intro a b same
      have started := start_number_same (top b) same
      unfold enter
      dsimp only
      rw [same.top, started.top]
      apply outcomes_ite
      · exact same.leading_ws
      apply outcomes_ite
      · exact started.answer Fed.refused
      split
      · exact started.answer Fed.refused
      · exact put_digit_same _ c started
  | .int numMin numMax => by
      intro a b same
      have started := start_number_same (top b) same
      unfold enter
      dsimp only
      rw [same.top, started.top]
      apply outcomes_ite
      · exact same.leading_ws
      · exact started.stay _ _
  | .str minItems maxItems pat => by
      intro a b same
      unfold enter
      rw [same.top]
      apply outcomes_ite
      · exact same.leading_ws
      apply outcomes_ite
      · exact same.answer Fed.refused
      · exact same.stay true _
  | .obj props => by
      intro a b same
      unfold enter
      rw [same.top]
      apply outcomes_ite
      · exact same.leading_ws
      apply outcomes_ite
      · exact same.answer Fed.refused
      · exact same.stay true _
  | .map items => by
      intro a b same
      unfold enter
      rw [same.top]
      apply outcomes_ite
      · exact same.leading_ws
      apply outcomes_ite
      · exact same.answer Fed.refused
      · exact same.stay true _
  | .arr items minItems maxItems => by
      intro a b same
      unfold enter
      rw [same.top]
      apply outcomes_ite
      · exact same.leading_ws
      apply outcomes_ite
      · exact same.answer Fed.refused
      · exact same.stay true _
  | .union alts ws => by
      intro a b same
      unfold enter
      apply outcomes_ite
      · exact same.leading_ws
      split
      · exact same.answer Fed.refused
      · exact enter_nth_steps c alts _ a b same
  | .cond alts ws => by
      intro a b same
      unfold enter
      rw [← same.live.frames.depth,
        frame_choice_same same.live.frames (Nat.sub_lt same.filled Nat.one_pos)]
      apply outcomes_ite
      · exact same.leading_ws
      split
      · exact same.answer Fed.refused
      · exact enter_nth_steps c alts _ a b same
  | .seq props ws => by
      intro a b same
      unfold enter
      rw [same.top]
      apply outcomes_ite
      · exact same.leading_ws
      apply outcomes_ite
      · exact same.leave true
      · exact open_nth_steps c props 0 _ _ (same.set_top _)
  | .members props sentinel => by
      intro a b same
      unfold enter
      dsimp only
      rw [same.top]
      split
      · exact (same.set_top _).answer Fed.refused
      · exact same.stay true _
      · apply outcomes_ite
        · exact (same.set_top _).leave _
        · exact member_nth_steps c props _ _ _ _ (same.set_top _)
  | .raw sentinel maxItems => by
      intro a b same
      unfold enter
      rw [same.top]
      apply outcomes_ite
      · exact same.leading_ws
      · exact feed_raw_steps sentinel maxItems c _ _ (same.set_top _)

theorem enter_nth_steps (c : UInt8) : ∀ (alts : List Snode) (i : Nat), Steps (enterNth c alts i)
  | [], i => by
      intro a b same
      unfold enterNth
      exact same.answer Fed.refused
  | n :: rest, 0 => by
      intro a b same
      unfold enterNth
      rw [same.top]
      exact enter_steps c n _ _ (same.set_top _)
  | n :: rest, i + 1 => by
      intro a b same
      unfold enterNth
      exact enter_nth_steps c rest i a b same

theorem open_nth_steps (c : UInt8) : ∀ (props : List Snode) (i : Nat), Steps (openNth c props i)
  | [], i => by
      intro a b same
      unfold openNth
      exact same.answer Fed.refused
  | n :: rest, 0 => by
      intro a b same
      unfold openNth
      exact pushed_steps n (enter_steps c n) a b same
  | n :: rest, i + 1 => by
      intro a b same
      unfold openNth
      exact open_nth_steps c rest i a b same

theorem member_nth_steps (c : UInt8) :
    ∀ (props : List (Member Snode)) (i : Nat) (again : Bool), Steps (memberNth c props i again)
  | [], i, again => by
      intro a b same
      unfold memberNth
      exact same.answer Fed.refused
  | ⟨key, nextKey, req, value⟩ :: rest, 0, again => by
      intro a b same
      have pushed := same.push_value value
      unfold memberNth
      dsimp only
      rw [← pushed.1]
      apply outcomes_ite
      · exact pushed.2.answer Fed.refused
      apply outcomes_ite
      · exact enter_steps c value _ _ pushed.2
      · exact pushed.2.answer Fed.kept
  | member :: rest, i + 1, again => by
      intro a b same
      unfold memberNth
      exact member_nth_steps c rest i again a b same

end

/-! ## A value goes on -/

theorem expect_steps (value : Option Snode) : Steps (expect value) := by
  intro a b same
  unfold expect
  split
  · exact same.answer Fed.refused
  next n =>
    have pushed := same.push_value n
    exact outcomes_map (fun pushed : Bool => if pushed then Fed.kept else Fed.refused)
      ⟨pushed.1, pushed.2.live⟩

theorem feed_obj_steps (c : UInt8) : Steps (feedObj c) := by
  intro a b same
  unfold feedObj
  dsimp only
  rw [same.top]
  split
  · apply outcomes_ite
    · exact feed_map_key_steps c a b same
    · exact feed_key_steps _ c a b same
  · apply outcomes_ite
    · exact same.answer Fed.kept
    apply outcomes_ite
    · exact same.answer Fed.refused
    · exact expect_steps _ _ _ (same.set_top _)
  · apply outcomes_ite
    · exact same.answer Fed.kept
    apply outcomes_ite
    · apply outcomes_ite
      · exact same.answer Fed.refused
      · exact same.stay true _
    apply outcomes_ite
    · apply outcomes_ite
      · exact same.answer Fed.refused
      · exact same.leave false
    · exact same.answer Fed.refused
  · apply outcomes_ite
    · exact same.answer Fed.kept
    apply outcomes_ite
    · apply outcomes_ite
      · exact same.answer Fed.refused
      · exact same.leave false
    apply outcomes_ite
    · exact same.answer Fed.refused
    apply outcomes_ite
    · exact same.stay true _
    apply outcomes_ite
    · exact same.stay false _
    · exact same.stay true _

theorem feed_arr_steps (items : Snode) (minItems : Nat) (maxItems : Option Nat) (c : UInt8) :
    Steps (feedArr items minItems maxItems c) := by
  intro a b same
  unfold feedArr
  dsimp only
  rw [same.top]
  apply outcomes_ite
  · exact same.answer Fed.kept
  apply outcomes_ite
  · apply outcomes_ite
    · apply outcomes_ite
      · exact same.answer Fed.refused
      · exact same.leave false
    · exact open_nth_steps c _ _ _ _ (same.set_top _)
  apply outcomes_ite
  · apply outcomes_ite
    · exact same.answer Fed.refused
    · exact expect_steps _ _ _ (same.set_top _)
  apply outcomes_ite
  · apply outcomes_ite
    · exact same.answer Fed.refused
    · exact same.leave false
  · exact same.answer Fed.refused

theorem feed_seq_steps (props : List Snode) (c : UInt8) : Steps (feedSeq props c) := by
  intro a b same
  unfold feedSeq
  dsimp only
  rw [same.top]
  apply outcomes_ite
  · exact same.leave true
  · exact open_nth_steps c _ _ _ _ (same.set_top _)

theorem feed_members_steps (props : List (Member Snode)) (sentinel : Bytes) (c : UInt8) :
    Steps (feedMembers props sentinel c) := by
  intro a b same
  unfold feedMembers
  dsimp only
  rw [same.top]
  split
  · exact (same.set_top _).answer Fed.refused
  · exact same.stay true _
  · apply outcomes_ite
    · exact (same.set_top _).leave _
    · exact member_nth_steps c props _ _ _ _ (same.set_top _)

/-- Before the root value has ended there is a frame on top. -/
theorem feed_byte_keeps (c : UInt8) : Keeps (feedByte c) := by
  intro a b same
  unfold feedByte
  rw [← same.done]
  cases finished : a.done with
  | true => exact ⟨rfl, same⟩
  | false =>
      have running : SameOpen a b := ⟨same, same.filled finished⟩
      rw [running.top]
      rw [if_neg Bool.false_ne_true, if_neg Bool.false_ne_true]
      split
      · exact enter_steps c _ a b running
      · exact feed_any_steps c a b running
      · exact feed_str_steps _ _ _ c a b running
      · exact feed_lit_steps c a b running
      · exact feed_int_steps _ _ c a b running
      · exact feed_num_steps _ _ c a b running
      · exact feed_arr_steps _ _ _ c a b running
      · exact feed_arr_steps _ _ _ c a b running
      · exact feed_seq_steps _ c a b running
      · exact feed_members_steps _ _ c a b running
      · exact feed_members_steps _ _ c a b running
      · exact feed_raw_steps _ _ c a b running
      · exact feed_obj_steps c a b running
      · exact feed_obj_steps c a b running
      · exact running.answer Fed.refused

theorem feed_round_keeps (c : UInt8) : Keeps (feedRound c) := by
  intro a b same
  have first := feed_byte_keeps c a b same
  have second := feed_byte_keeps c _ _ first.2
  unfold feedRound
  rw [← Prod.eta (feedByte c a), ← Prod.eta (feedByte c b), ← first.1]
  cases (feedByte c a).1 with
  | refused => exact ⟨rfl, first.2⟩
  | kept => exact ⟨rfl, first.2⟩
  | again =>
      constructor
      · dsimp only
        rw [second.1]
      · exact second.2

theorem sval_feed_keeps (s : Bytes) : Keeps (svalFeed s) := by
  induction s with
  | nil =>
      intro a b same
      exact ⟨rfl, same⟩
  | cons c s ih =>
      intro a b same
      have round := feed_round_keeps c a b same
      unfold svalFeed
      rw [← Prod.eta (feedRound c a), ← Prod.eta (feedRound c b), ← round.1]
      cases (feedRound c a).1 with
      | false => exact ⟨rfl, round.2⟩
      | true => exact ih _ _ round.2

/-! ## Questions -/

theorem ws_is_content_same {a b : Sval} (same : SameLive a b) :
    svalWsIsContent a = svalWsIsContent b := by
  unfold svalWsIsContent
  rw [← same.frames.depth]
  split
  · rfl
  next filled =>
    have running : SameOpen a b := ⟨same, Nat.pos_of_ne_zero filled⟩
    rw [running.top]

theorem at_raw_tail_same {a b : Sval} (same : SameLive a b) :
    svalAtRawTail a = svalAtRawTail b := by
  have slots : ((List.range (a.depth - 1)).all fun i => exhausted (a.stack i)) =
      (List.range (a.depth - 1)).all fun i => exhausted (b.stack i) := by
    rw [Bool.eq_iff_iff, List.all_eq_true, List.all_eq_true]
    apply forall₂_congr
    intro i low
    rw [same.frames.slots i (by have := List.mem_range.mp low; omega)]
  unfold svalAtRawTail
  rw [← same.done, ← same.frames.depth, slots]
  by_cases filled : 0 < a.depth
  · have running : SameOpen a b := ⟨same, filled⟩
    rw [running.top]
  · simp only [filled, decide_false, Bool.and_false, Bool.false_and]

/-! ## The forced completion -/

/-- The live parts while `sval_close` runs: the last frame may be gone. -/
structure SameClosing (a b : Sval) : Prop where
  frames : SameSlots a.stack a.depth b.stack b.depth
  lastEnum : a.lastEnum = b.lastEnum
  any : Json.InPlace.SameLive a.any b.any
  number : SameNumber a.numText a.numLen b.numText b.numLen

theorem close_frame_same {a b : Sval} {slot : Nat} (q : Emitq) (same : SameClosing a b)
    (within : slot < a.depth) :
    Outcomes (fun _ a' b' => SameClosing a' b' ∧ a'.depth = a.depth) (closeFrame slot q a)
      (closeFrame slot q b) := by
  have closed := Json.InPlace.jsonv_close_keeps 512 _ _ same.any
  have moved : SameClosing { a with any := (Json.InPlace.jsonvClose 512 a.any).2 }
      { b with any := (Json.InPlace.jsonvClose 512 b.any).2 } :=
    ⟨same.frames, same.lastEnum, closed.2, same.number⟩
  have digits : (List.range a.numLen).map a.numText = (List.range b.numLen).map b.numText := by
    rw [← same.number.len]
    apply List.map_congr_left
    intro i low
    exact same.number.text i (Nat.le_of_lt (List.mem_range.mp low))
  unfold closeFrame
  dsimp only
  rw [same.frames.slots slot within, frame_choice_same same.frames within, digits, ← closed.1,
    ← closed.2.done]
  split
  · exact ⟨rfl, same, rfl⟩
  · exact ⟨rfl, moved, rfl⟩
  · exact ⟨rfl, same, rfl⟩
  · exact ⟨rfl, same, rfl⟩
  · split
    · exact ⟨rfl, same, rfl⟩
    · exact ⟨rfl, same, rfl⟩
  all_goals exact ⟨rfl, same, rfl⟩

theorem close_choice_same {a b : Sval} {slot : Nat} (same : SameClosing a b) (within : slot < a.depth) :
    SameClosing (closeChoice slot a) (closeChoice slot b) ∧ (closeChoice slot a).depth = a.depth := by
  unfold closeChoice
  dsimp only
  rw [same.frames.slots slot within, same.frames.slots (slot - 1) (by omega)]
  split
  · split
    · exact ⟨⟨same.frames.overwrite _ _, same.lastEnum, same.any, same.number⟩, rfl⟩
    · exact ⟨same, rfl⟩
  · exact ⟨same, rfl⟩

theorem close_frames_same (depth : Nat) {a b : Sval} (q : Emitq) (same : SameClosing a b)
    (reaches : depth = a.depth) :
    Outcomes (fun _ => SameClosing) (closeFrames depth q a) (closeFrames depth q b) := by
  induction depth generalizing a b q with
  | zero => exact ⟨rfl, same⟩
  | succ depth ih =>
      have within : depth < a.depth := reaches ▸ Nat.lt_succ_self depth
      have closed := close_frame_same q same within
      have chosen := close_choice_same closed.2.1 (closed.2.2.symm ▸ within)
      have popped : SameClosing { closeChoice depth (closeFrame depth q a).2 with depth := depth }
          { closeChoice depth (closeFrame depth q b).2 with depth := depth } :=
        ⟨chosen.1.frames.lower (by rw [chosen.2, closed.2.2]; exact Nat.le_of_lt within),
          chosen.1.lastEnum, chosen.1.any, chosen.1.number⟩
      unfold closeFrames
      dsimp only
      rw [← closed.1]
      exact ih _ popped rfl

theorem sval_close_keeps (cap : Nat) : Keeps (svalClose cap) := by
  intro a b same
  have closing : SameClosing a b := ⟨same.frames, same.lastEnum, same.any, same.number⟩
  have closed := close_frames_same a.depth { room := cap - 1, out := [] } closing rfl
  have unopened : (a.done = true ∨ a.depth = 1 ∧ (a.stack 0).phase = .start) ↔
      (b.done = true ∨ b.depth = 1 ∧ (b.stack 0).phase = .start) := by
    rw [same.done, ← same.frames.depth]
    apply or_congr_right
    apply and_congr_right
    intro single
    rw [same.frames.slots 0 (single ▸ Nat.one_pos)]
  unfold svalClose
  dsimp only
  simp only [unopened]
  apply outcomes_ite
  · exact ⟨rfl, same⟩
  · rw [← same.frames.depth]
    constructor
    · dsimp only
      rw [closed.1]
    · exact ⟨closed.2.frames, fun never => (Bool.false_ne_true never.symm).elim, rfl,
        closed.2.lastEnum, closed.2.any, closed.2.number⟩

/-! ## Trials -/

/-- The copies of two structs with the same live part, in any two scratches. -/
theorem snapshot_alike (dst dst' : Sval) {a b : Sval} (same : SameLive a b) :
    SameLive (svalSnapshot dst a) (svalSnapshot dst' b) := by
  have frames := same.frames
  have number := same.number
  constructor
  · constructor
    · exact frames.fits
    · intro i low
      unfold svalSnapshot at low ⊢
      dsimp only at low ⊢
      rw [← frames.depth, min_eq_left frames.fits, if_pos low, if_pos low]
      exact frames.slots i low
    · exact frames.depth
  · exact same.filled
  · exact same.done
  · exact same.lastEnum
  · exact Json.InPlace.snapshot_alike _ _ same.any
  · constructor
    · exact number.fits
    · intro filled
      unfold svalSnapshot
      dsimp only
      rw [if_pos (Nat.lt_succ_self _)]
      exact number.terminated filled
    · intro i low
      unfold svalSnapshot at low ⊢
      dsimp only at low ⊢
      rw [← number.len, if_pos (Nat.lt_succ_of_le low), if_pos (Nat.lt_succ_of_le low)]
      exact number.text i low
    · exact number.len

/-- A copy over the struct itself changes nothing. -/
theorem snapshot_self (v : Sval) : svalSnapshot v v = v := by
  unfold svalSnapshot
  simp only [ite_self, Json.InPlace.snapshot_self]

/-- The copy holds what is live in the struct it was made of. -/
theorem snapshot_same (dst : Sval) {v : Sval} (live : SameLive v v) :
    SameLive v (svalSnapshot dst v) := by
  have copies := snapshot_alike v dst live
  rw [snapshot_self] at copies
  exact copies

/-- What a caller can do with a validator: feed it, try a text, go on in the scratch of
a trial, close it, and ask. -/
inductive Command
  | feed (s : Bytes)
  | trial (scratch : Sval) (s : Bytes)
  | enterTrial (scratch : Sval) (s : Bytes)
  | close (cap : Nat)
  | wsIsContent
  | atRawTail
  | isDone

/-- What the caller sees. -/
inductive Answer
  | verdict (legal : Bool)
  | closed (text : Bytes)
deriving DecidableEq

def run : Command → Sval → Answer × Sval
  | .feed s, v => (.verdict (svalFeed s v).1, (svalFeed s v).2)
  | .trial scratch s, v =>
      let tried := svalTrial s ⟨v, scratch⟩
      (.verdict tried.1, tried.2.v)
  | .enterTrial scratch s, v =>
      let tried := svalTrial s ⟨v, scratch⟩
      (.verdict tried.1, tried.2.scratch)
  | .close cap, v => (.closed (svalClose cap v).1, (svalClose cap v).2)
  | .wsIsContent, v => (.verdict (svalWsIsContent v), v)
  | .atRawTail, v => (.verdict (svalAtRawTail v), v)
  | .isDone, v => (.verdict v.done, v)

theorem run_keeps (command : Command) : Keeps (run command) := by
  intro a b same
  cases command with
  | feed s =>
      have fed := sval_feed_keeps s a b same
      exact outcomes_map _ fed
  | trial scratch s =>
      have fed := sval_feed_keeps s _ _ (snapshot_alike scratch scratch same)
      exact ⟨congrArg Answer.verdict fed.1, same⟩
  | enterTrial scratch s =>
      have fed := sval_feed_keeps s _ _ (snapshot_alike scratch scratch same)
      exact outcomes_map _ fed
  | close cap =>
      have closed := sval_close_keeps cap a b same
      exact outcomes_map _ closed
  | wsIsContent => exact ⟨congrArg Answer.verdict (ws_is_content_same same), same⟩
  | atRawTail => exact ⟨congrArg Answer.verdict (at_raw_tail_same same), same⟩
  | isDone => exact ⟨congrArg Answer.verdict same.done, same⟩

/-- The states that feeding reaches from `sval_init`, with any memory under it. -/
inductive Reached : Sval → Prop
  | init (memory : Sval) (root : Snode) : Reached (svalInit memory root)
  | feed {v : Sval} (s : Bytes) : Reached v → Reached (svalFeed s v).2

theorem init_same (a b : Sval) (root : Snode) : SameLive (svalInit a root) (svalInit b root) := by
  constructor
  · constructor
    · exact Nat.succ_le_of_lt (Nat.zero_lt_succ _)
    · intro i low
      have bottom : i = 0 := Nat.lt_one_iff.mp low
      subst bottom
      unfold svalInit
      simp only [Function.update_self]
    · rfl
  · intro running
    exact Nat.one_pos
  · rfl
  · rfl
  · constructor
    · exact Nat.zero_le _
    · intro i low
      rfl
    all_goals rfl
  · constructor
    · exact Nat.zero_lt_succ _
    · intro filled
      exact absurd rfl filled
    · intro i low
      rfl
    · rfl

theorem reached_live {v : Sval} (reached : Reached v) : SameLive v v := by
  induction reached with
  | init memory root => exact init_same memory memory root
  | feed s reached ih => exact (sval_feed_keeps s _ _ ih).2

/-- A trial of a reached state: the verdict of a full copy, the state as it was, and a
scratch that nothing tells from the full copy any more. -/
theorem sval_trial_full_copy {v : Sval} (reached : Reached v) (scratch : Sval) (s : Bytes) :
    (svalTrial s ⟨v, scratch⟩).1 = (svalFeed s v).1 ∧ (svalTrial s ⟨v, scratch⟩).2.v = v ∧
      ∀ commands, answers run commands (svalTrial s ⟨v, scratch⟩).2.scratch =
        answers run commands (svalFeed s v).2 := by
  have same := sval_feed_keeps s _ _ (snapshot_same scratch (reached_live reached))
  refine ⟨same.1.symm, rfl, ?_⟩
  intro commands
  exact (answers_agree run_keeps commands same.2).symm

/-- Both trials: of the schema validator, and of the validator of `json_mode`. -/
theorem trials_match_full_copies :
    (∀ v : Sval, Reached v → ∀ (scratch : Sval) (s : Bytes),
      (svalTrial s ⟨v, scratch⟩).1 = (svalFeed s v).1 ∧ (svalTrial s ⟨v, scratch⟩).2.v = v ∧
        ∀ commands, answers run commands (svalTrial s ⟨v, scratch⟩).2.scratch =
          answers run commands (svalFeed s v).2) ∧
    ∀ v : Json.InPlace.Jsonv, Json.InPlace.Reached v → ∀ (scratch : Json.InPlace.Jsonv) (s : Bytes),
      (Json.InPlace.jsonvTrial s ⟨v, scratch⟩).1 = (Json.InPlace.jsonvFeed s v).1 ∧
        (Json.InPlace.jsonvTrial s ⟨v, scratch⟩).2.v = v ∧
        ∀ commands,
          answers Json.InPlace.run commands (Json.InPlace.jsonvTrial s ⟨v, scratch⟩).2.scratch =
            answers Json.InPlace.run commands (Json.InPlace.jsonvFeed s v).2 :=
  ⟨fun _ reached => sval_trial_full_copy reached,
    fun _ reached => Json.InPlace.jsonv_trial_full_copy reached⟩

/-- Memory in which nothing is what it should be. -/
def poisoned : Sval :=
  { stack := fun i => { Sframe.start .null with phase := .raw, idx := i, litPos := 77 }
    depth := 31, done := true, lastEnum := some 5
    any := { stack := fun _ => 0x78, depth := 9, st := .lit, sub := 7, lit := 2, done := true, esc := 3 }
    numText := fun _ => 0x39, numLen := 60 }

/-- `[1` has been read, and `5]` is tried in a poisoned scratch. -/
theorem poisoned_scratch_matches :
    (svalTrial [0x35, rbracket]
      ⟨(svalFeed [lbracket, one] (svalInit poisoned (.arr (.num none none) 0 none))).2, poisoned⟩).1 =
    (svalFeed [0x35, rbracket]
      (svalFeed [lbracket, one] (svalInit poisoned (.arr (.num none none) 0 none))).2).1 :=
  (trials_match_full_copies.1 _ (Reached.feed [lbracket, one] (Reached.init poisoned _)) poisoned
    [0x35, rbracket]).1

end GridcoreRunner.Schema.InPlace
