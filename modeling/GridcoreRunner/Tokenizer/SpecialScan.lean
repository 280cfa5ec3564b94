import GridcoreRunner.Tokenizer.Special

/-!
# The scan cuts at the leftmost special tokens

The scan leaves a place only when no special token stands there, so the pending plain text is free
of them; where one stands the scan takes the longest. A cut is determined by the text.
-/

namespace GridcoreRunner.Tok

set_option autoImplicit false

variable {t : Tokenizer}

theorem Cut.bytes {text : Bytes} {pieces : List Piece} (cut : Cut t text pieces) :
    pieces.flatMap (Piece.bytes t) = text := by
  induction cut with
  | done => rfl
  | tail some_ free => exact List.flatMap_singleton _ _
  | special longest cut induction =>
      rw [List.flatMap_cons, induction]
      rfl
  | plain some_ free longest cut induction =>
      rw [List.flatMap_cons, List.flatMap_cons, induction]
      rfl

theorem Free.head {s rest : Bytes} (free : Free t s rest) (some_ : s ≠ []) (id : Nat) :
    ¬Matches t (s ++ rest) id :=
  free 0 (List.length_pos_iff.mpr some_) id

/-- A free piece grows by a byte where no special token stands. -/
theorem Free.snoc {s rest : Bytes} {c : UInt8} (free : Free t s (c :: rest))
    (none_ : ∀ id, ¬Matches t (c :: rest) id) : Free t (s ++ [c]) rest := by
  intro k below id
  rw [List.length_append, List.length_singleton] at below
  rw [List.append_assoc, List.singleton_append]
  by_cases last : k = s.length
  · rw [last, List.drop_left]
    exact none_ id
  · exact free k (by omega) id

theorem Longest.unique {rest : Bytes} {id other : Nat} (one : Longest t rest id)
    (two : Longest t rest other) : id = other := by
  have same : tokenAt t id = tokenAt t other := by
    apply List.IsPrefix.eq_of_length
    · apply List.prefix_of_prefix_length_le one.here.2 two.here.2
      exact two.longest id one.here
    · exact Nat.le_antisymm (two.longest id one.here) (one.longest other two.here)
  exact Nat.le_antisymm (one.first other two.here same.symm) (two.first id one.here same)

/-- Two plain pieces in front of a match are equally long. -/
theorem free_length {s other rest more : Bytes} {id : Nat} (free : Free t s rest)
    (same : s ++ rest = other ++ more) (here : Matches t more id) : s.length ≤ other.length := by
  by_contra shorter
  have stands := free other.length (by omega) id
  rw [same, List.drop_left] at stands
  exact stands here

theorem Cut.unique {text : Bytes} {pieces others : List Piece} (one : Cut t text pieces)
    (two : Cut t text others) : pieces = others := by
  have nothing {id : Nat} {rest : Bytes} (longest : Longest t (tokenAt t id ++ rest) id)
      (empty : [] = tokenAt t id ++ rest) : False := by
    have some_ := special_token_some longest.here.1
    exact some_ (List.append_eq_nil_iff.mp empty.symm).1
  induction one generalizing others with
  | done =>
      generalize empty : ([] : Bytes) = text at two
      cases two with
      | done => rfl
      | tail some_ free => exact absurd empty.symm some_
      | special longest cut => exact (nothing longest empty).elim
      | plain some_ free longest cut =>
          exact absurd (List.append_eq_nil_iff.mp empty.symm).1 some_
  | @tail s some_ free =>
      generalize same : s = text at two
      have whole := List.append_nil s
      cases two with
      | done => exact absurd same some_
      | tail someOther freeOther => rfl
      | @special id rest pieces longest cut =>
          have head := free.head some_ id
          rw [whole, same] at head
          exact absurd longest.here head
      | @plain other id rest pieces someOther freeOther longest cut =>
          rw [← whole] at same
          have short := free_length free same longest.here
          have sizes := congrArg List.length same
          have token := List.length_pos_iff.mpr (special_token_some longest.here.1)
          simp only [List.length_append, List.length_nil] at sizes
          omega
  | @special id rest pieces longest cut induction =>
      generalize same : tokenAt t id ++ rest = text at two
      cases two with
      | done => exact (nothing longest same.symm).elim
      | tail someOther freeOther =>
          have head := freeOther.head someOther id
          rw [List.append_nil, ← same] at head
          exact absurd longest.here head
      | @special other more others longestOther cutOther =>
          have equal : id = other := by
            rw [← same] at longestOther
            exact longest.unique longestOther
          rw [← equal] at same
          rw [← List.append_cancel_left same] at cutOther
          rw [← equal, induction cutOther]
      | @plain s other more others someOther freeOther longestOther cutOther =>
          have head := freeOther.head someOther id
          rw [← same] at head
          exact absurd longest.here head
  | @plain s id rest pieces some_ free longest cut induction =>
      generalize same : s ++ (tokenAt t id ++ rest) = text at two
      cases two with
      | done => exact absurd (List.append_eq_nil_iff.mp same).1 some_
      | tail someOther freeOther =>
          rw [← List.append_nil text] at same
          have short := free_length freeOther same.symm longest.here
          have sizes := congrArg List.length same
          have token := List.length_pos_iff.mpr (special_token_some longest.here.1)
          simp only [List.length_append, List.length_nil] at sizes
          omega
      | @special other more others longestOther cutOther =>
          have head := free.head some_ other
          rw [same] at head
          exact absurd longestOther.here head
      | @plain s' other more others someOther freeOther longestOther cutOther =>
          have short := free_length free same longestOther.here
          have long := free_length freeOther same.symm longest.here
          obtain ⟨front, back⟩ := List.append_inj same (Nat.le_antisymm short long)
          have equal : id = other := by
            rw [← back] at longestOther
            exact longest.unique longestOther
          rw [← equal] at back
          rw [← List.append_cancel_left back] at cutOther
          rw [← equal, front, induction cutOther]

/-! ## The loop -/

/-- What the loop is in when it has passed over the bytes from `seg` to `i`. -/
structure EncodeState.Sound (t : Tokenizer) (text : Bytes) (state : EncodeState) : Prop where
  order : state.seg ≤ state.i
  inside : state.i ≤ text.length
  free : Free t ((text.drop state.seg).take (state.i - state.seg)) (text.drop state.i)

theorem pending_split (text : Bytes) {state : EncodeState} (order : state.seg ≤ state.i) :
    (text.drop state.seg).take (state.i - state.seg) ++ text.drop state.i =
      text.drop state.seg := by
  have behind : text.drop state.i = (text.drop state.seg).drop (state.i - state.seg) := by
    rw [List.drop_drop]
    congr 1
    omega
  rw [behind, List.take_append_drop]

theorem sound_next {text : Bytes} {state : EncodeState} (sound : state.Sound t text)
    (more : state.i < text.length) (none_ : ∀ id, ¬Matches t (text.drop state.i) id) :
    EncodeState.Sound t text { state with i := state.i + 1 } := by
  have order := sound.order
  have free := sound.free
  have byte := List.drop_eq_getElem_cons more
  rw [byte] at free none_
  refine ⟨Nat.le_succ_of_le order, more, ?_⟩
  have longer : (text.drop state.seg).take (state.i + 1 - state.seg) =
      (text.drop state.seg).take (state.i - state.seg) ++ [text[state.i]] := by
    have place : state.seg + (state.i - state.seg) = state.i := by omega
    have here : (text.drop state.seg)[state.i - state.seg]? = some text[state.i] := by
      rw [List.getElem?_drop, place, List.getElem?_eq_getElem more]
    rw [show state.i + 1 - state.seg = state.i - state.seg + 1 by omega, List.take_add_one, here]
    rfl
  dsimp only
  rw [longer]
  exact free.snoc none_

theorem sound_matched {text : Bytes} {state : EncodeState} {id : Nat}
    (longest : Longest t (text.drop state.i) id) (out : List Nat) :
    EncodeState.Sound t text
      { i := state.i + (tokenAt t id).length
        seg := state.i + (tokenAt t id).length
        first := false
        out } := by
  have fits := longest.here.2.length_le
  rw [List.length_drop] at fits
  have some_ := List.length_pos_iff.mpr (special_token_some longest.here.1)
  refine ⟨Nat.le_refl _, by dsimp only; omega, ?_⟩
  dsimp only
  rw [Nat.sub_self, List.take_zero]
  intro k below
  exact absurd below (Nat.not_lt_zero k)

/-- The loop writes the pieces of the cut of what is left from the pending plain text on. -/
theorem encode_loop_cut (segment : Nat → Bool → Bytes → List Nat) (text : Bytes) (fuel : Nat) {state : EncodeState}
    (sound : state.Sound t text) (enough : text.length - state.i < fuel) :
    ∃ pieces, Cut t (text.drop state.seg) pieces ∧
      encodeLoop t (specials t) true segment text fuel state =
        state.out ++ emitPieces t segment state.seg state.first pieces := by
  induction fuel generalizing state with
  | zero => exact absurd enough (Nat.not_lt_zero _)
  | succ fuel induction =>
      have order := sound.order
      have within := sound.inside
      have split := pending_split text order
      rw [encodeLoop]
      by_cases more : state.i < text.length
      · rw [if_pos more, if_pos rfl]
        cases found : specialAt t (specials t) (text.drop state.i) with
        | none =>
            obtain ⟨pieces, cut, same⟩ :=
              induction (sound_next sound more (special_at_none found)) (by dsimp only; omega)
            exact ⟨pieces, cut, same⟩
        | some id =>
            have longest := special_at_longest found
            have some_ := List.length_pos_iff.mpr (special_token_some longest.here.1)
            obtain ⟨pieces, cut, same⟩ := induction
              (sound_matched longest (flush segment text state ++ [id])) (by dsimp only; omega)
            dsimp only at cut same ⊢
            have token : text.drop state.i =
                tokenAt t id ++ text.drop (state.i + (tokenAt t id).length) := by
              obtain ⟨rest, shape⟩ := longest.here.2
              rw [← List.drop_drop, ← shape, List.drop_left]
            rw [token] at longest
            rw [same]
            by_cases pending : state.seg < state.i
            · have size : ((text.drop state.seg).take (state.i - state.seg)).length =
                  state.i - state.seg := by
                rw [List.length_take, List.length_drop]
                omega
              have filled : (text.drop state.seg).take (state.i - state.seg) ≠ [] := by
                apply List.ne_nil_of_length_pos
                omega
              have free := sound.free
              rw [token] at free
              refine ⟨.plain ((text.drop state.seg).take (state.i - state.seg)) :: .special id ::
                pieces, ?_, ?_⟩
              · have cut_ := Cut.plain filled free longest cut
                rw [← token, split] at cut_
                exact cut_
              · rw [flush, if_pos pending, emitPieces, emitPieces, size,
                  show state.seg + (state.i - state.seg) = state.i by omega]
                simp only [List.append_assoc, List.singleton_append]
            · have same_ : state.seg = state.i := by omega
              refine ⟨.special id :: pieces, ?_, ?_⟩
              · rw [same_, token]
                exact Cut.special longest cut
              · rw [flush, if_neg pending, emitPieces, same_, List.append_assoc]
                rfl
      · have last : state.i = text.length := by omega
        rw [if_neg more, flush]
        dsimp only
        have free := sound.free
        rw [last, List.drop_length] at split free
        rw [List.append_nil] at split
        by_cases pending : state.seg < text.length
        · rw [if_pos pending, split]
          rw [split] at free
          have filled : text.drop state.seg ≠ [] := by
            apply List.ne_nil_of_length_pos
            rw [List.length_drop]
            omega
          refine ⟨_, Cut.tail filled free, ?_⟩
          rw [emitPieces, emitPieces, List.append_nil]
        · rw [if_neg pending, List.drop_eq_nil_of_le (by omega)]
          exact ⟨[], Cut.done, (List.append_nil _).symm⟩

/-- The buckets answer as the whole sorted list does, and the text is encoded piece by piece of its
one cut at the leftmost and longest special tokens. -/
theorem special_scan (t : Encoder) :
    (∀ rest, specialAt t.toTokenizer (specials t.toTokenizer) rest =
        wholeScan t.toTokenizer rest) ∧
      ∀ force behind text cap addBos, ∃ pieces,
        (∀ others, Cut t.toTokenizer (cText text) others ↔ others = pieces) ∧
          pieces.flatMap (Piece.bytes t.toTokenizer) = cText text ∧
            tokEncode t force behind text cap addBos true =
              (bosIds t addBos ++ emitPieces t.toTokenizer
                (fun seg first s => segmentIds t.toTokenizer force (behind seg) first s) 0 true
                  pieces).take cap := by
  constructor
  · exact special_at_whole t.toTokenizer
  · intro force behind text cap addBos
    have start : EncodeState.Sound t.toTokenizer (cText text) ⟨0, 0, true, []⟩ := by
      refine ⟨Nat.le_refl 0, Nat.zero_le _, ?_⟩
      intro k below
      exact absurd below (Nat.not_lt_zero k)
    obtain ⟨pieces, cut, same⟩ := encode_loop_cut
      (fun seg first s => segmentIds t.toTokenizer force (behind seg) first s)
        (cText text) ((cText text).length + 1) start (by dsimp only; omega)
    refine ⟨pieces, ?_, cut.bytes, ?_⟩
    · intro others
      constructor
      · intro other
        exact other.unique cut
      · intro equal
        rw [equal]
        exact cut
    · rw [tokEncode, same]
      rfl

end GridcoreRunner.Tok
