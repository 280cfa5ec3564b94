import GridcoreRunner.Json.Mode

/-!
# The length of a closing tail

The containers are at most as many as the stack holds, and whatever was open inside the
innermost one takes a few bytes more.
-/

namespace GridcoreRunner.Json

set_option autoImplicit false

/-! ## The stack -/

/-- What `push` leaves room for. -/
def Fits (v : Jsonv) : Prop := v.stack.length ≤ stackSize

theorem push_fits {v w : Jsonv} {lid : Lid} (pushed : push v lid = some w) : Fits w := by
  unfold push at pushed
  split_ifs at pushed with full
  cases pushed
  show v.stack.length + 1 ≤ stackSize
  omega

theorem pop_fits {v : Jsonv} (fits : Fits v) : Fits (pop v) := by
  show v.stack.tail.length ≤ stackSize
  rw [List.length_tail]
  exact (Nat.sub_le _ _).trans fits

theorem value_done_fits {v : Jsonv} (fits : Fits v) : Fits (valueDone v) := by
  unfold Fits
  rw [value_done_stack]
  exact fits

theorem feed_value_fits {v w : Jsonv} {c : UInt8} (fits : Fits v)
    (fed : feedValue v c = some w) : Fits w := by
  unfold feedValue at fed
  split_ifs at fed
  case pos => exact Option.some.inj fed ▸ fits
  case pos => exact push_fits fed
  case pos => exact push_fits fed
  all_goals exact Option.some.inj fed ▸ fits

theorem feed_string_fits {v w : Jsonv} {c : UInt8} (fits : Fits v)
    (fed : feedString v c = some w) : Fits w := by
  unfold feedString at fed
  split_ifs at fed
  case pos => exact Option.some.inj fed ▸ fits
  case pos => exact Option.some.inj fed ▸ fits
  case neg => exact Option.some.inj fed ▸ fits
  case neg => exact Option.some.inj fed ▸ fits
  case pos =>
    rcases Option.map_eq_some_iff.mp fed with ⟨next, _, same⟩
    exact same ▸ fits
  case pos => exact Option.some.inj fed ▸ fits
  case neg => exact Option.some.inj fed ▸ value_done_fits fits
  all_goals exact Option.some.inj fed ▸ fits

theorem feed_literal_fits {v w : Jsonv} {c : UInt8} (fits : Fits v)
    (fed : feedLiteral v c = some w) : Fits w := by
  unfold feedLiteral at fed
  dsimp only at fed
  split_ifs at fed
  · exact Option.some.inj fed ▸ value_done_fits fits
  · exact Option.some.inj fed ▸ fits

/-- A byte leaves a stack that fits. -/
theorem feed_byte_fits {v w : Jsonv} {c : UInt8} {again : Bool} (fits : Fits v)
    (fed : feedByte v c = some (w, again)) : Fits w := by
  have popped : Fits (valueDone (pop v)) := value_done_fits (pop_fits fits)
  have ended := value_done_fits fits
  have moved : ∀ st sub, Fits { v with st := st, sub := sub } := fun _ _ => fits
  unfold feedByte at fed
  have read : ∀ {next : Option Jsonv}, next.map (fun v => (v, false)) = some (w, again) →
      next = some w := by
    intro next same
    rcases Option.map_eq_some_iff.mp same with ⟨u, found, pair⟩
    cases pair
    exact found
  cases st : v.st with
  | start =>
      simp only [st] at fed
      have pushed := read fed
      split_ifs at pushed
      exact push_fits pushed
  | arrFirst =>
      simp only [st] at fed
      have next := read fed
      split_ifs at next
      · exact Option.some.inj next ▸ popped
      · exact feed_value_fits fits next
  | value =>
      simp only [st] at fed
      exact feed_value_fits fits (read fed)
  | key =>
      simp only [st] at fed
      exact feed_string_fits fits (read fed)
  | string =>
      simp only [st] at fed
      exact feed_string_fits fits (read fed)
  | lit =>
      simp only [st] at fed
      exact feed_literal_fits fits (read fed)
  | _ =>
      simp only [st] at fed
      grind

theorem feed_round_fits {v w : Jsonv} {c : UInt8} (fits : Fits v)
    (fed : feedRound v c = some w) : Fits w := by
  rcases Option.bind_eq_some_iff.mp fed with ⟨⟨first, again⟩, read, rest⟩
  have kept := feed_byte_fits fits read
  cases again with
  | false => exact Option.some.inj rest ▸ kept
  | true =>
      rcases Option.map_eq_some_iff.mp rest with ⟨⟨second, _⟩, read', same⟩
      exact same ▸ feed_byte_fits kept read'

theorem jsonv_feed_fits {v w : Jsonv} {s : Bytes} (fits : Fits v)
    (fed : jsonvFeed v s = some w) : Fits w := by
  induction s generalizing v with
  | nil => exact Option.some.inj fed ▸ fits
  | cons c s induction =>
      rw [jsonvFeed, List.foldlM_cons] at fed
      rcases Option.bind_eq_some_iff.mp fed with ⟨next, here, rest⟩
      exact induction (feed_round_fits fits here) rest

/-! ## The tail -/

theorem close_low_length (sub : Nat) : (closeLow sub).length ≤ 6 := by
  unfold closeLow
  simp only [List.length_append]
  split_ifs <;> simp <;> omega

theorem close_digits_length (sub esc : Nat) : (closeDigits sub esc).1.length ≤ 4 := by
  unfold closeDigits
  dsimp only
  split_ifs
  all_goals
    simp only [List.length_append, List.length_replicate, List.length_singleton]
    omega

theorem escape_close_length (sub esc : Nat) : (jsonEscapeClose sub esc).length ≤ 10 := by
  have low := close_low_length
  have digits := close_digits_length sub esc
  unfold jsonEscapeClose
  split_ifs
  · simp
  · rw [List.length_append]
    have tail := low (closeDigits sub esc).2
    omega
  · have tail := low sub
    omega

theorem close_containers_length (st : St) (done : Bool) (stack : List Lid) :
    (closeContainers st done stack).length ≤ stack.length := by
  induction stack generalizing st done with
  | nil => exact Nat.le_refl _
  | cons top stack induction =>
      unfold closeContainers
      split_ifs
      · exact Nat.succ_le_succ (induction _ _)
      · exact Nat.zero_le _

theorem literal_length (lit : Nat) : (LITS lit).length ≤ 5 := by
  rcases lit with _ | _ | lit
  · decide
  · decide
  · show nullText.length ≤ 5
    decide

/-- One of the `if`s of `jsonv_close` writes a few bytes and leaves the stack alone. -/
def Brief (bound : Nat) (close : Jsonv → Bytes × Jsonv) : Prop :=
  ∀ v, (close v).1.length ≤ bound ∧ (close v).2.stack = v.stack

theorem close_string_brief : Brief 11 closeString := by
  intro v
  have text : (jsonEscapeClose v.sub v.esc ++ [quote]).length ≤ 11 := by
    have escape := escape_close_length v.sub v.esc
    rw [List.length_append, List.length_singleton]
    omega
  unfold closeString
  split_ifs
  · exact ⟨text, rfl⟩
  · exact ⟨text, value_done_stack v⟩
  · exact ⟨Nat.zero_le _, rfl⟩

theorem close_colon_brief : Brief 1 closeColon := by
  intro v
  unfold closeColon
  split_ifs <;> exact ⟨by simp, rfl⟩

theorem close_key_brief : Brief 4 closeKey := by
  intro v
  unfold closeKey
  split_ifs <;> exact ⟨by simp, rfl⟩

theorem close_literal_brief : Brief 5 closeLiteral := by
  intro v
  have text := literal_length v.lit
  unfold closeLiteral
  split_ifs
  · refine ⟨?_, value_done_stack v⟩
    rw [List.length_drop]
    omega
  · exact ⟨Nat.zero_le _, rfl⟩

theorem close_number_brief : Brief 1 closeNumber := by
  intro v
  unfold closeNumber
  split_ifs
  · exact ⟨by simp, value_done_stack v⟩
  · exact ⟨Nat.zero_le _, rfl⟩

theorem close_whole_brief : Brief 0 closeWhole := by
  intro v
  unfold closeWhole
  split_ifs
  · exact ⟨Nat.le_refl _, value_done_stack v⟩
  · exact ⟨Nat.le_refl _, rfl⟩

theorem close_value_brief : Brief 4 closeValue := by
  intro v
  unfold closeValue
  split_ifs
  · exact ⟨Nat.le_refl nullText.length, value_done_stack v⟩
  · exact ⟨Nat.zero_le _, rfl⟩

/-- The tail is little longer than the stack. -/
theorem closing_tail_length (v : Jsonv) : (closingTail v).length ≤ v.stack.length + 26 := by
  unfold closingTail
  split_ifs
  · exact Nat.zero_le _
  · have string := close_string_brief v
    have colon := close_colon_brief (closeString v).2
    have key := close_key_brief (closeColon (closeString v).2).2
    have literal := close_literal_brief (closeKey (closeColon (closeString v).2).2).2
    have number := close_number_brief (closeLiteral (closeKey (closeColon (closeString v).2).2).2).2
    have whole := close_whole_brief
      (closeNumber (closeLiteral (closeKey (closeColon (closeString v).2).2).2).2).2
    have value := close_value_brief
      (closeWhole (closeNumber (closeLiteral (closeKey (closeColon (closeString v).2).2).2).2).2).2
    dsimp only
    simp only [List.length_append]
    rw [value.2, whole.2, number.2, literal.2, key.2, colon.2, string.2]
    apply (Nat.add_le_add_left (close_containers_length _ _ v.stack) _).trans
    omega

/-- In every state that a text leads to, the tail fits a buffer of this size whole. -/
theorem jsonv_close_whole {s : Bytes} {v : Jsonv} (fed : jsonvFeed jsonvInit s = some v)
    {cap : Nat} (room : stackSize + 26 < cap) : jsonvClose v cap = closingTail v := by
  have fits : Fits v := jsonv_feed_fits (Nat.zero_le _) fed
  have short := closing_tail_length v
  unfold Fits at fits
  exact List.take_of_length_le (by omega)

end GridcoreRunner.Json
