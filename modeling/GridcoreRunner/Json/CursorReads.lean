import GridcoreRunner.Json.Cursor

/-!
# The cursor reads what is left of the text

Where a function of the parser stands at a position and the parser over the rest of the text
has that rest to read, both do the same: step by step for the bytes of a string and of a
number, by induction on the rounds for the loops and on the room for values.
-/

namespace GridcoreRunner.Json

set_option autoImplicit false

open Outcome

namespace Cursor

/-! ## Positions -/

/-- From `start` the cursor has come to `p`, and this is left of the text. -/
structure Stands (s : Bytes) (start p : Nat) (rest : Bytes) : Prop where
  forward : start ≤ p
  inside : p ≤ s.length
  left : s.drop p = rest

/-- The same value, read up to the same place. -/
def Both {α : Type} (s : Bytes) (start : Nat) (x : α × Nat) (y : α × Bytes) : Prop :=
  x.1 = y.1 ∧ Stands s start x.2 y.2

section Positions

variable {s rest t : Bytes} {start start' p : Nat} {c : UInt8}

theorem Stands.here (stands : Stands s start p rest) : Stands s p p rest :=
  ⟨Nat.le_refl p, stands.inside, stands.left⟩

theorem Stands.back (stands : Stands s start p rest) (earlier : start' ≤ start) :
    Stands s start' p rest :=
  ⟨Nat.le_trans earlier stands.forward, stands.inside, stands.left⟩

theorem Stands.size (stands : Stands s start p rest) : p + rest.length = s.length := by
  have inside := stands.inside
  rw [← stands.left, List.length_drop]
  omega

theorem Stands.over (stands : Stands s start p []) : ¬p < s.length := by
  have size := stands.size
  rw [List.length_nil] at size
  omega

theorem Stands.more (stands : Stands s start p (c :: t)) : p < s.length := by
  have size := stands.size
  rw [List.length_cons] at size
  omega

theorem Stands.byte (stands : Stands s start p (c :: t)) : byteAt s p = .done c := by
  have first : s[p]? = some c := by
    rw [← List.head?_drop, stands.left]
    rfl
  rw [byteAt, first]

theorem Stands.next (stands : Stands s start p (c :: t)) : Stands s start (p + 1) t := by
  refine ⟨Nat.le_succ_of_le stands.forward, stands.more, ?_⟩
  rw [← List.tail_drop, stands.left]
  rfl

theorem Stands.sees_over (stands : Stands s start p []) (test : UInt8 → Bool) :
    sees s p test = .done false := if_neg stands.over

theorem Stands.sees_byte (stands : Stands s start p (c :: t)) (test : UInt8 → Bool) :
    sees s p test = .done (test c) := by
  rw [sees, if_pos stands.more, stands.byte]
  rfl

theorem Stands.bytes {n : Nat} (stands : Stands s start p rest) (enough : n ≤ rest.length) :
    bytesAt s p n = .done (rest.take n) := by
  have size := stands.size
  rw [bytesAt, if_pos (by omega), stands.left]

theorem Stands.drop {n : Nat} (stands : Stands s start p rest) (enough : n ≤ rest.length) :
    Stands s start (p + n) (rest.drop n) := by
  have size := stands.size
  refine ⟨Nat.le_add_right_of_le stands.forward, by omega, ?_⟩
  rw [← stands.left, List.drop_drop]

theorem Stands.rounds (stands : Stands s start p rest) : roundsAt s p = rest.length + 1 := by
  have size := stands.size
  rw [roundsAt]
  omega

/-- Bytes that pass are skipped. -/
theorem Stands.skip_loop (test : UInt8 → Bool) {rounds : Nat} (stands : Stands s start p rest)
    (enough : rest.length < rounds) :
    ∃ p', skipLoop s test rounds p = .done p' ∧ Stands s start p' (rest.dropWhile test) := by
  induction rest generalizing p rounds with
  | nil =>
      obtain ⟨rounds, rfl⟩ := Nat.exists_eq_succ_of_ne_zero (Nat.ne_zero_of_lt enough)
      refine ⟨p, ?_, stands⟩
      rw [skipLoop, stands.sees_over]
      rfl
  | cons c t induction =>
      obtain ⟨rounds, rfl⟩ := Nat.exists_eq_succ_of_ne_zero (Nat.ne_zero_of_lt enough)
      rw [skipLoop, stands.sees_byte, bind_done]
      by_cases more : test c = true
      · rw [if_pos more, List.dropWhile_cons_of_pos more]
        rw [List.length_cons] at enough
        exact induction stands.next (by omega)
      · rw [if_neg more, List.dropWhile_cons_of_neg more]
        exact ⟨p, rfl, stands⟩

theorem Stands.skip_ws (stands : Stands s start p rest) :
    ∃ p', skipWs s p = .done p' ∧ Stands s start p' (Json.skipWs rest) := by
  refine stands.skip_loop isWs ?_
  rw [stands.rounds]
  exact Nat.lt_succ_self _

end Positions

/-! ## Strings -/

section Strings

variable {s rest t : Bytes} {start p : Nat}

theorem Stands.hex_loop (digits : Bytes) {t : Bytes} (v : Nat)
    (stands : Stands s start p (digits ++ t)) :
    hexLoop s digits.length p v = .done
      (digits.foldlM (fun v c => (hexDigit c).map fun d => v * 16 + d) v) := by
  induction digits generalizing p v with
  | nil => rfl
  | cons c digits induction =>
      rw [List.length_cons, hexLoop, Stands.byte (c := c) stands, bind_done, List.foldlM_cons]
      cases hexDigit c with
      | none => rfl
      | some d => exact induction _ (Stands.next (c := c) stands)

theorem Stands.hex4 {a b c d : UInt8} (stands : Stands s start p (a :: b :: c :: d :: t)) :
    hex4 s p = .done (Json.hex4 a b c d) := by
  have read := Stands.hex_loop [a, b, c, d] 0 stands
  change hexLoop s 4 p 0 = _ at read
  rw [Cursor.hex4, read]
  congr 1
  simp only [List.foldlM_cons, List.foldlM_nil, Json.hex4]
  cases hexDigit a <;> cases hexDigit b <;> cases hexDigit c <;> cases hexDigit d <;> simp

theorem Stands.continuation_loop {n : Nat} (stands : Stands s start p rest)
    (enough : n ≤ rest.length) :
    continuationLoop s n p = .done (!(rest.take n).any fun x => x &&& 0xC0 != 0x80) := by
  induction n generalizing p rest with
  | zero => rfl
  | succ n induction =>
      rcases rest with _ | ⟨c, t⟩
      · exact absurd enough (Nat.not_succ_le_zero n)
      · rw [continuationLoop, stands.byte, bind_done, List.take_succ_cons, List.any_cons]
        by_cases other : (c &&& 0xC0 != 0x80) = true
        · rw [if_pos other, other]
          rfl
        · rw [if_neg other, Bool.eq_false_iff.mpr other, Bool.false_or]
          exact induction stands.next (Nat.le_of_succ_le_succ enough)

theorem Stands.utf8_seq {c : UInt8} (stands : Stands s start p (c :: t)) :
    utf8Seq s p = .done (Json.utf8Seq (c :: t)) := by
  have size := stands.size
  unfold utf8Seq Json.utf8Seq
  rw [stands.byte, bind_done]
  dsimp only
  generalize (if c < 0x80 then 1 else if c &&& 0xE0 = 0xC0 then 2
    else if c &&& 0xF0 = 0xE0 then 3 else if c &&& 0xF8 = 0xF0 then 4 else 0) = len
  by_cases short : len = 0 ∨ (c :: t).length < len
  · rw [if_pos short, if_pos (by omega)]
  rw [if_neg short, if_neg (by omega)]
  rw [List.length_cons] at short
  obtain ⟨n, rfl⟩ := Nat.exists_eq_succ_of_ne_zero (fun none' => short (Or.inl none'))
  rw [Nat.succ_sub_one, stands.next.continuation_loop (by omega), bind_done, List.take_succ_cons,
    List.tail_cons]
  by_cases stray : ((t.take n).any fun x => x &&& 0xC0 != 0x80) = true
  · rw [stray]
    rfl
  rw [Bool.eq_false_iff.mpr stray]
  have second : (if n.succ > 1 then byteAt s (p + 1) else .done 0) =
      .done (if n.succ > 1 then (c :: t).getD 1 0 else 0) := by
    by_cases wide : n.succ > 1
    · rcases t with _ | ⟨c1, t⟩
      · rw [List.length_nil] at short
        omega
      · rw [if_pos wide, if_pos wide, stands.next.byte]
        rfl
    · rw [if_neg wide, if_neg wide]
  simp only [Bool.not_false, Bool.not_true, Bool.false_eq_true, if_false]
  rw [second, bind_done]
  split_ifs <;> rfl

theorem first_four (rest : Bytes) (enough : 4 ≤ rest.length) :
    ∃ a b c d t, rest = a :: b :: c :: d :: t := by
  rcases rest with _ | ⟨a, _ | ⟨b, _ | ⟨c, _ | ⟨d, t⟩⟩⟩⟩
  case cons.cons.cons.cons => exact ⟨a, b, c, d, t, rfl⟩
  all_goals
    simp only [List.length_cons, List.length_nil] at enough
    omega

theorem first_six (rest : Bytes) (enough : 6 ≤ rest.length) :
    ∃ e f a b c d t, rest = e :: f :: a :: b :: c :: d :: t := by
  rcases rest with _ | ⟨e, _ | ⟨f, rest⟩⟩
  case cons.cons =>
    simp only [List.length_cons] at enough
    obtain ⟨a, b, c, d, t, rfl⟩ := first_four rest (by omega)
    exact ⟨e, f, a, b, c, d, t, rfl⟩
  all_goals
    simp only [List.length_cons, List.length_nil] at enough
    omega

theorem Stands.unicode_escape (stands : Stands s start p rest) :
    Refines (Both s start) (unicodeEscape s p) (Json.unicodeEscape rest) := by
  have size := stands.size
  unfold unicodeEscape
  by_cases short : p + 4 > s.length
  · have none' : Json.unicodeEscape rest = none := by
      unfold Json.unicodeEscape
      split
      · simp only [List.length_cons] at size
        omega
      · rfl
    rw [if_pos short, none']
    exact trivial
  obtain ⟨a, b, c, d, t, rfl⟩ := first_four rest (by omega)
  simp only [List.length_cons] at size
  have after : Stands s start (p + 4) t := stands.drop (n := 4) (by simp)
  rw [if_neg short, stands.hex4, bind_done, Json.unicodeEscape]
  cases Json.hex4 a b c d with
  | none => exact trivial
  | some cp =>
      rw [Option.bind_some]
      dsimp only
      refine refines_ite (fun _ => trivial) fun _ => refines_ite (fun _ => ?_) fun _ =>
        refines_ite (fun _ => trivial) fun _ => ⟨rfl, after⟩
      by_cases alone : p + 4 + 6 > s.length
      · rw [if_pos alone]
        split
        · simp only [List.length_cons] at size
          omega
        · exact trivial
      obtain ⟨back, u, a', b', c', d', t', rfl⟩ := first_six t (by omega)
      rw [if_neg alone, after.byte, bind_done]
      dsimp only
      by_cases slash : back = backslash
      · rw [if_neg (not_not_intro slash), after.next.byte, bind_done]
        by_cases letter : u = letterU
        · rw [if_neg (not_not_intro letter), if_pos ⟨slash, letter⟩, after.next.next.hex4,
            bind_done]
          cases Json.hex4 a' b' c' d' with
          | none => exact trivial
          | some lo =>
              refine refines_ite (fun _ => ?_) fun _ => trivial
              exact ⟨rfl, after.drop (n := 6) (by simp)⟩
        · rw [if_pos letter, if_neg fun both => letter both.2]
          exact trivial
      · rw [if_pos slash, if_neg fun both => slash both.1]
        exact trivial

/-- The bytes of a string up to its closing quote. -/
theorem Stands.string_loop {rounds rounds' : Nat} {out : Bytes} (stands : Stands s start p rest)
    (enough : rest.length < rounds) (enough' : rest.length ≤ rounds') :
    Refines (Both s start) (stringLoop s rounds p out) (Json.stringLoop rounds' rest out) := by
  induction rounds generalizing p rest rounds' out with
  | zero => exact absurd enough (Nat.not_lt_zero _)
  | succ rounds induction =>
      rcases rest with _ | ⟨ch, t⟩
      · rw [stringLoop, if_pos stands.over]
        cases rounds' <;> exact trivial
      rw [List.length_cons] at enough enough'
      obtain ⟨rounds', rfl⟩ := Nat.exists_eq_succ_of_ne_zero (Nat.ne_zero_of_lt enough')
      rw [stringLoop, if_neg (not_not_intro stands.more), stands.byte, bind_done]
      unfold Json.stringLoop
      refine refines_ite (fun _ => ⟨rfl, stands.next⟩) fun _ => refines_ite (fun _ => ?_) fun _ =>
        refines_ite (fun _ => trivial) fun _ => refines_ite (fun _ => ?_) fun _ => ?_
      · rcases t with _ | ⟨e, t⟩
        · rw [if_pos stands.next.over]
          exact trivial
        rw [List.length_cons] at enough enough'
        rw [if_neg (not_not_intro stands.next.more), stands.next.byte, bind_done]
        have after : Stands s p (p + 2) t := stands.here.next.next
        refine refines_ite (fun _ => ?_) fun _ => ?_
        · refine refines_bind after.here.unicode_escape ?_
          rintro ⟨cp, q⟩ ⟨cp', t'⟩ ⟨same, later⟩
          dsimp only at same later ⊢
          have sizes := later.size
          have size := after.size
          have passed := later.forward
          rw [same]
          exact induction (later.back (after.back stands.forward).forward) (by omega) (by omega)
        · cases unescape e with
          | none => exact trivial
          | some b =>
              refine induction (after.back stands.forward) (by omega) (by omega)
      · exact induction stands.next (by omega) (by omega)
      · rw [stands.utf8_seq, bind_done]
        dsimp only
        refine refines_ite (fun _ => trivial) fun some_ => ?_
        have within := (utf8_seq_spec (Nat.pos_of_ne_zero some_)).1
        rw [stands.bytes within, bind_done]
        refine induction (stands.drop within) ?_ ?_
        · rw [List.length_drop, List.length_cons]
          omega
        · rw [List.length_drop, List.length_cons]
          omega

theorem Stands.parse_string (stands : Stands s start p rest) :
    Refines (Both s start) (parseString s p) (Json.parseString rest) := by
  rw [parseString]
  rcases rest with _ | ⟨c, t⟩
  · rw [stands.sees_over]
    exact trivial
  rw [stands.sees_byte, bind_done, Json.parseString]
  simp only [beq_iff_eq]
  refine refines_ite (fun _ => ?_) fun _ => trivial
  apply stands.next.string_loop
  · rw [stands.next.rounds]
    exact Nat.lt_succ_self _
  · exact Nat.le_refl _

end Strings

/-! ## Numbers -/

section Numbers

variable {s rest t : Bytes} {start p : Nat}

theorem Stands.skip_digits (stands : Stands s start p rest) :
    Refines (Stands s start) (skipDigits s p) (Json.skipDigits rest) := by
  rw [skipDigits]
  rcases rest with _ | ⟨c, t⟩
  · rw [stands.sees_over]
    exact trivial
  rw [stands.sees_byte, bind_done, Json.skipDigits]
  refine refines_ite (fun _ => ?_) fun _ => trivial
  have enough : t.length < roundsAt s (p + 1) := by
    rw [stands.next.rounds]
    exact Nat.lt_succ_self _
  obtain ⟨q, skipped, after⟩ := stands.next.skip_loop isDigit enough
  rw [skipped]
  exact after

theorem Stands.skip_whole (stands : Stands s start p rest) :
    Refines (Stands s start) (skipWhole s p) (Json.skipWhole rest) := by
  rw [skipWhole]
  rcases rest with _ | ⟨c, t⟩
  · rw [if_pos (Nat.not_lt.mp stands.over)]
    exact trivial
  rw [if_neg (Nat.not_le.mpr stands.more), stands.byte, bind_done]
  unfold Json.skipWhole
  refine refines_ite (fun _ => ?_) fun _ => stands.skip_digits
  rcases t with _ | ⟨d, t⟩
  · rw [stands.next.sees_over]
    exact stands.next
  · rw [stands.next.sees_byte, bind_done]
    exact refines_ite (fun _ => trivial) fun _ => stands.next

theorem Stands.skip_fraction (stands : Stands s start p rest) :
    Refines (Stands s start) (skipFraction s p) (Json.skipFraction rest) := by
  rw [skipFraction]
  rcases rest with _ | ⟨c, t⟩
  · rw [stands.sees_over]
    exact stands
  rw [stands.sees_byte, bind_done, Json.skipFraction]
  simp only [beq_iff_eq]
  exact refines_ite (fun _ => stands.next.skip_digits) fun _ => stands

theorem Stands.skip_exponent (stands : Stands s start p rest) :
    Refines (Stands s start) (skipExponent s p) (Json.skipExponent rest) := by
  rw [skipExponent]
  rcases rest with _ | ⟨c, t⟩
  · rw [stands.sees_over]
    exact stands
  rw [stands.sees_byte, bind_done, Json.skipExponent]
  simp only [Bool.or_eq_true, beq_iff_eq]
  refine refines_ite (fun _ => ?_) fun _ => stands
  rcases t with _ | ⟨d, t⟩
  · rw [stands.next.sees_over]
    exact stands.next.skip_digits
  · rw [stands.next.sees_byte, bind_done, skipSign]
    by_cases sign : (d == plus || d == minus) = true
    · rw [if_pos sign, if_pos sign]
      exact stands.next.next.skip_digits
    · rw [if_neg sign, if_neg sign]
      exact stands.next.skip_digits

theorem Stands.parse_number (stands : Stands s start p rest) :
    Refines (Both s start) (parseNumber s p) (Json.parseNumber rest) := by
  have signed : ∃ sign, sees s p (· == minus) = .done sign ∧
      Stands s p (if sign then p + 1 else p) (skipSign (· == minus) rest) := by
    rcases rest with _ | ⟨c, t⟩
    · exact ⟨false, stands.sees_over _, stands.here⟩
    · refine ⟨c == minus, stands.sees_byte _, ?_⟩
      rw [skipSign]
      by_cases sign : (c == minus) = true
      · rw [if_pos sign, if_pos sign]
        exact stands.here.next
      · rw [if_neg sign, if_neg sign]
        exact stands.here
  obtain ⟨sign, seen, whole⟩ := signed
  rw [parseNumber, seen, bind_done, Json.parseNumber]
  refine refines_bind whole.skip_whole fun _ _ whole => ?_
  refine refines_bind whole.skip_fraction fun _ _ fraction => ?_
  refine refines_bind fraction.skip_exponent fun q left exponent => ?_
  have size := stands.size
  have sizeLeft := exponent.size
  have passed := exponent.forward
  have width : rest.length - left.length = q - p := by omega
  rw [stands.bytes (n := q - p) (by omega), bind_done]
  dsimp only
  rw [width]
  exact refines_ite (fun _ => ⟨rfl, exponent.back stands.forward⟩) fun _ => trivial

end Numbers

/-! ## Values -/

section Values

variable {s rest t : Bytes} {start p : Nat}

/-- The names read so far stand in the hash set. -/
structure Named (set : Keyset) (keys keys' : List Bytes) : Prop where
  same : keys = keys'
  lists : set.Lists keys'
  free : ∀ key ∈ keys', NulFree key

theorem Stands.parse_key {set : Keyset} {keys keys' : List Bytes} (stands : Stands s start p rest)
    (named : Named set keys keys') :
    Refines (fun x y => Named x.1.1 x.1.2 y.1 ∧ Stands s start x.2 y.2) (parseKey s p set keys)
      (Json.parseKey rest keys') := by
  obtain ⟨q, skipped, blank⟩ := stands.skip_ws
  rw [parseKey, skipped, bind_done, Json.parseKey]
  rcases read : Json.parseString (Json.skipWs rest) with _ | ⟨key, left⟩
  · have none' := blank.parse_string
    rw [read] at none'
    rw [none'.refused_of_none]
    exact trivial
  have found := blank.parse_string
  rw [read] at found
  obtain ⟨⟨key', q'⟩, ran, same, after⟩ := found.done_of_some
  dsimp only at same after
  rw [ran, bind_done, Option.bind_some]
  dsimp only
  rw [same]
  have free : NulFree key := by
    obtain ⟨chars, _, decode, _⟩ := parse_string_inv read
    rw [decode]
    exact decode_nul_free chars
  obtain ⟨larger, inserted, lists⟩ := keyset_insert_lists named.lists free named.free
  rw [inserted]
  by_cases seen : key ∈ keys'
  · rw [if_pos seen, decide_eq_false (not_not_intro seen)]
    exact trivial
  rw [if_neg seen, decide_eq_true seen]
  dsimp only
  obtain ⟨q2, skipped2, blank2⟩ := after.skip_ws
  rw [skipped2, bind_done]
  rcases next : Json.skipWs left with _ | ⟨c, t⟩
  · rw [next] at blank2
    rw [blank2.sees_over]
    exact trivial
  rw [next] at blank2
  rw [blank2.sees_byte, bind_done]
  simp only [beq_iff_eq]
  refine refines_ite (fun _ => ⟨⟨?_, lists seen, ?_⟩, blank2.next⟩) fun _ => trivial
  · rw [named.same]
  · intro old member
    rcases List.mem_append.mp member with before | last
    · exact named.free old before
    · rw [List.mem_singleton.mp last]
      exact free

theorem Stands.parse_label {lid : Lid} {set : Keyset} {keys keys' : List Bytes}
    (stands : Stands s start p rest) (named : Named set keys keys') :
    Refines (fun x y => Named x.1.1 x.1.2 y.1 ∧ Stands s start x.2 y.2) (parseLabel s lid p set keys)
      (Json.parseLabel lid rest keys') := by
  cases lid with
  | brace => exact stands.parse_key named
  | bracket => exact ⟨named, stands⟩

/-- `parse_value` reads the same from every place. -/
def Reads (s : Bytes) (value : Nat → Outcome (Jv × Nat)) (value' : Bytes → Option (Jv × Bytes)) :
    Prop :=
  ∀ start p rest, Stands s start p rest → Refines (Both s start) (value p) (value' rest)

theorem Stands.container_loop {value : Nat → Outcome (Jv × Nat)}
    {value' : Bytes → Option (Jv × Bytes)} (reads : Reads s value value')
    (nothing : value' [] = none) {lid : Lid} {rounds rounds' : Nat} {set : Keyset}
    {keys keys' : List Bytes} {items : List Jv} (stands : Stands s start p rest)
    (named : Named set keys keys') (enough : rest.length < rounds)
    (enough' : rest.length ≤ rounds') :
    Refines (Both s start) (containerLoop value s lid rounds p set keys items)
      (Json.containerLoop value' lid rounds' rest keys' items) := by
  induction rounds generalizing p rest rounds' set keys keys' items with
  | zero => exact absurd enough (Nat.not_lt_zero _)
  | succ rounds induction =>
      -- without a byte there is no entry, whatever the rounds
      have one : Json.containerLoop value' lid rounds' rest keys' items =
          Json.containerLoop value' lid (rounds' - 1 + 1) rest keys' items := by
        rcases rounds' with _ | rounds'
        · have empty : rest = [] := List.length_eq_zero_iff.mp (by omega)
          rw [empty, Json.containerLoop]
          cases lid with
          | brace => rfl
          | bracket =>
              simp only [Nat.zero_sub, Json.containerLoop, Json.parseLabel, Option.bind_some,
                nothing]
              rfl
        · rfl
      rw [one, containerLoop, Json.containerLoop]
      refine refines_bind (stands.here.parse_label named) ?_
      rintro ⟨⟨set, keys⟩, q⟩ ⟨keys', left⟩ ⟨named, label⟩
      dsimp only at named label ⊢
      refine refines_bind (reads p q left label) ?_
      rintro ⟨item, q'⟩ ⟨item', left'⟩ ⟨same, valued⟩
      dsimp only at same valued ⊢
      obtain ⟨q2, skipped, blank⟩ := valued.skip_ws
      rw [skipped, bind_done, same]
      rcases next : Json.skipWs left' with _ | ⟨c, t⟩
      · rw [next] at blank
        rw [blank.sees_over, bind_done, if_neg Bool.false_ne_true, blank.sees_over]
        exact trivial
      rw [next] at blank
      rw [blank.sees_byte, bind_done, blank.sees_byte, bind_done]
      simp only [beq_iff_eq]
      have after := blank.next.back stands.forward
      refine refines_ite (fun _ => ?_) fun _ => refines_ite (fun _ => ?_) fun _ => trivial
      · have size := stands.size
        have sizeAfter := after.size
        have passed := blank.forward
        exact induction after named (by omega) (by omega)
      · rw [named.same]
        exact ⟨rfl, after⟩

theorem Stands.parse_container {value : Nat → Outcome (Jv × Nat)}
    {value' : Bytes → Option (Jv × Bytes)} (reads : Reads s value value')
    (nothing : value' [] = none) {lid : Lid} (stands : Stands s start p rest) :
    Refines (Both s start) (parseContainer value s lid p) (Json.parseContainer value' lid rest) := by
  obtain ⟨q, skipped, blank⟩ := stands.skip_ws
  rw [parseContainer, skipped, bind_done, Json.parseContainer]
  have loop : Refines (Both s start)
      (containerLoop value s lid (roundsAt s q) q Keyset.empty [] [])
      (Json.containerLoop value' lid rest.length (Json.skipWs rest) [] []) := by
    refine blank.container_loop reads nothing ⟨rfl, keyset_empty_lists, ?_⟩ ?_ ?_
    · intro key never
      cases never
    · rw [blank.rounds]
      exact Nat.lt_succ_self _
    · exact List.length_dropWhile_le _ _
  rcases next : Json.skipWs rest with _ | ⟨c, t⟩
  · rw [next] at blank loop
    rw [blank.sees_over, bind_done, if_neg Bool.false_ne_true, List.head?_nil,
      if_neg (Option.some_ne_none _).symm]
    exact loop
  rw [next] at blank loop
  rw [blank.sees_byte, bind_done]
  simp only [beq_iff_eq, List.head?_cons, Option.some.injEq]
  exact refines_ite (fun _ => ⟨rfl, blank.next⟩) fun _ => loop

theorem Stands.parse_literal (text : Bytes) (stands : Stands s start p rest) (some_ : text ≠ []) :
    parseLiteral s p text = .done (decide (text <+: rest)) := by
  rw [parseLiteral]
  rcases rest with _ | ⟨c, t⟩
  · rw [stands.sees_over, decide_eq_false (fun front => some_ (List.prefix_nil.mp front))]
    rfl
  have size := stands.size
  rw [stands.sees_byte, bind_done]
  have front : text <+: c :: t ↔
      text.length ≤ (c :: t).length ∧ (c :: t).take text.length = text := by
    rw [List.prefix_iff_eq_take, eq_comm (a := text)]
    constructor
    · intro taken
      refine ⟨?_, taken⟩
      have length := congrArg List.length taken
      rw [List.length_take] at length
      omega
    · exact And.right
  have head : text <+: c :: t → text.head? = some c := by
    intro starts
    rcases text with _ | ⟨b, text⟩
    · exact absurd rfl some_
    · rw [(List.cons_prefix_cons.mp starts).1]
      rfl
  by_cases long : text.length ≤ (c :: t).length
  · by_cases same : (c :: t).take text.length = text
    · have starts := front.mpr ⟨long, same⟩
      rw [if_pos ⟨by rw [head starts, beq_self_eq_true], by omega⟩, stands.bytes long, map_done,
        same, beq_self_eq_true, decide_eq_true starts]
    · rw [decide_eq_false fun starts => same (front.mp starts).2]
      split
      · rw [stands.bytes long, map_done, beq_eq_false_iff_ne.mpr same]
      · rfl
  · rw [decide_eq_false fun starts => long (front.mp starts).1, if_neg]
    intro both
    omega

theorem parse_value_nothing (room : Nat) : Json.parseValue room [] = none := by
  cases room <;> rfl

theorem parse_value_reads (s : Bytes) (room : Nat) :
    Reads s (parseValue s room) (Json.parseValue room) := by
  induction room with
  | zero =>
      intro start p rest _
      exact trivial
  | succ room induction =>
      intro start p rest stands
      obtain ⟨q, skipped, blank⟩ := stands.skip_ws
      rw [parseValue, skipped, bind_done, Json.parseValue]
      rcases next : Json.skipWs rest with _ | ⟨ch, t⟩
      · rw [next] at blank
        rw [if_pos blank.over]
        exact trivial
      rw [next] at blank
      have nothing := parse_value_nothing room
      rw [if_neg (not_not_intro blank.more), blank.byte, bind_done]
      dsimp only
      refine refines_ite (fun _ => blank.next.parse_container induction nothing) fun _ => ?_
      refine refines_ite (fun _ => blank.next.parse_container induction nothing) fun _ => ?_
      refine refines_ite (fun _ => ?_) fun _ => ?_
      · refine refines_map blank.parse_string ?_
        rintro ⟨text, q'⟩ ⟨text', left⟩ ⟨same, after⟩
        exact ⟨congrArg Jv.str same, after⟩
      have literal : ∀ (text : Bytes) (v : Jv), text <+: ch :: t →
          Both s start (v, q + text.length) (v, (ch :: t).drop text.length) :=
        fun text v front => ⟨rfl, blank.drop front.length_le⟩
      rw [blank.parse_literal trueText (List.cons_ne_nil _ _), bind_done]
      simp only [decide_eq_true_eq]
      refine refines_ite (literal trueText (.bool true)) fun _ => ?_
      rw [blank.parse_literal falseText (List.cons_ne_nil _ _), bind_done]
      simp only [decide_eq_true_eq]
      refine refines_ite (literal falseText (.bool false)) fun _ => ?_
      rw [blank.parse_literal nullText (List.cons_ne_nil _ _), bind_done]
      simp only [decide_eq_true_eq]
      refine refines_ite (literal nullText .null) fun _ => ?_
      exact refines_ite (fun _ => blank.parse_number) fun _ => trivial

/-- The walk over the text computes what the parser does, and never goes wrong. -/
theorem json_parse_reads (s : Bytes) : Refines Eq (jsonParse s) (Json.jsonParse s) := by
  rw [jsonParse, Json.jsonParse]
  have whole : Stands s 0 0 s := ⟨Nat.le_refl 0, Nat.zero_le _, List.drop_zero⟩
  refine refines_bind (parse_value_reads s maxDepth 0 0 s whole) ?_
  rintro ⟨v, p⟩ ⟨v', rest⟩ ⟨same, after⟩
  dsimp only at same after ⊢
  obtain ⟨q, skipped, blank⟩ := after.skip_ws
  rw [skipped, bind_done, same]
  have size := blank.size
  rcases next : Json.skipWs rest with _ | ⟨c, t⟩
  · rw [next, List.length_nil, Nat.add_zero] at size
    rw [if_neg (not_not_intro size)]
    exact rfl
  · rw [next, List.length_cons] at size
    rw [if_pos (by omega)]
    exact trivial

end Values

end Cursor

end GridcoreRunner.Json
