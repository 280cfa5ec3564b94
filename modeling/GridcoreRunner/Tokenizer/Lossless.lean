import GridcoreRunner.Tokenizer.Marks
import GridcoreRunner.Tokenizer.Pieces

/-!
# Reading an encoded text back

The ids of `tok_encode_raw` decode to the text: always for byte-level BPE, and for
the two SentencePiece families if and only if every marker put in for a space stays
whole in a piece that is found, and (where the fallback reads whole characters) no
character runs past its word.
-/

namespace GridcoreRunner.Tok

set_option autoImplicit false

/-! ## Vocabularies -/

def inVocab (t : Tokenizer) (piece : Bytes) : Bool := (hmapGet t.tokens piece).isSome

/-- All 256 byte pieces, and other pieces of normal type. -/
structure SpmComplete (t : Tokenizer) : Prop where
  bytes : ∀ b, ∃ id, hmapGet t.tokens (byteName b) = some id
  byteType : ∀ b id, t.tokens[id]? = some (byteName b) → typeOf t id = .byte
  others : ∀ id piece, t.tokens[id]? = some piece → (∀ b, piece ≠ byteName b) →
    typeOf t id = .normal

/-- All characters of the byte alphabet, and pieces of normal type. -/
structure BpeComplete (t : Tokenizer) : Prop where
  bytes : ∀ b, inVocab t (u8Encode (b2u b)) = true
  others : ∀ id, id < t.tokens.length → typeOf t id = .normal

def ByteComplete (t : Tokenizer) : Prop := if t.model = .bpe then BpeComplete t else SpmComplete t

/-- Pieces shorter than the decode buffer, which SentencePiece leaves three bytes of. -/
def Roomy (t : Tokenizer) (cap : Nat) : Prop :=
  ∀ piece ∈ t.tokens, piece.length + (if t.model = .bpe then 0 else 3) ≤ cap

/-- Neither a marker nor the spelling of a byte piece, for SentencePiece. -/
def Legal (t : Tokenizer) (text : Bytes) : Prop :=
  t.model = .bpe ∨ (¬marker <:+: text ∧ ∀ b, ¬byteName b <:+: text)

/-! ## One piece -/

theorem hex_byte (b : UInt8) : UInt8.ofInt (strtol16 ((byteName b).drop 3)) = b := by
  have all : ∀ n : Fin 256, UInt8.ofInt (strtol16 ((byteName (UInt8.ofNat n)).drop 3)) =
      UInt8.ofNat n := by
    set_option maxRecDepth 4000 in
    decide
  have here := all ⟨b.toNat, b.toNat_lt⟩
  simpa using here

theorem byte_name_clean (b c : UInt8) (inside : c ∈ byteName b) : c ∉ marker := by
  have all : ∀ n : Fin 256,
      (byteName (UInt8.ofNat n)).all (fun c => !marker.contains c) = true := by
    set_option maxRecDepth 4000 in
    decide
  have here := all ⟨b.toNat, b.toNat_lt⟩
  simp only [UInt8.ofNat_toNat, List.all_eq_true] at here
  simpa using here c inside

section

variable {t : Tokenizer} {cap : Nat}

theorem decode_append (ids more : List Nat) :
    decodeAll t cap (ids ++ more) = decodeAll t cap ids ++ decodeAll t cap more := by
  simp [decodeAll]

theorem decode_byte (sentence : t.model ≠ .bpe) (complete : SpmComplete t) (roomy : Roomy t cap)
    (b : UInt8) : ∃ id, byteId t b = some id ∧ tokDecode t id cap = [b] := by
  rcases complete.bytes b with ⟨id, found⟩
  have key := hmap_get_key found
  have type_ := complete.byteType b id key
  have room := roomy (byteName b) (List.mem_of_getElem? key)
  have six : (byteName b).length = 6 := rfl
  refine ⟨id, ?_, ?_⟩
  · rw [byteId, found]
    rfl
  · rw [if_neg sentence, six] at room
    have some_ : 1 ≤ cap := by omega
    simp only [tokDecode, key, type_, if_neg sentence, six, hex_byte]
    simp [some_]

theorem decode_bytes (sentence : t.model ≠ .bpe) (complete : SpmComplete t) (roomy : Roomy t cap)
    (piece : Bytes) : decodeAll t cap (piece.filterMap (byteId t)) = piece := by
  induction piece with
  | nil => rfl
  | cons b piece ih =>
      rcases decode_byte sentence complete roomy b with ⟨id, name, byte⟩
      rw [List.filterMap_cons, name]
      simp only [decodeAll, List.flatMap_cons, byte] at ih ⊢
      rw [ih]
      rfl

theorem decode_look_up (sentence : t.model ≠ .bpe) (complete : SpmComplete t) (roomy : Roomy t cap)
    {piece : Bytes} (unnamed : ∀ b, piece ≠ byteName b) :
    decodeAll t cap (lookUp t piece) = readBack (inVocab t) piece := by
  rw [lookUp, readBack, inVocab]
  rcases found : hmapGet t.tokens piece with _ | id
  · simp only [Option.isSome_none, Bool.false_eq_true, if_false]
    exact decode_bytes sentence complete roomy piece
  · have key := hmap_get_key found
    have type_ := complete.others id piece key unnamed
    have room := roomy piece (List.mem_of_getElem? key)
    rw [if_neg sentence] at room
    have text := unmark_plain (cap - 3) piece (by omega)
    simp [decodeAll, tokDecode, key, type_, sentence, text]

theorem decode_units (sentence : t.model ≠ .bpe) (complete : SpmComplete t) (roomy : Roomy t cap)
    {units : List Bytes} (unnamed : ∀ u ∈ units, ∀ b, u ≠ byteName b) :
    decodeAll t cap (units.flatMap (lookUp t)) = units.flatMap (readBack (inVocab t)) := by
  induction units with
  | nil => rfl
  | cons u units ih =>
      rw [List.forall_mem_cons] at unnamed
      rw [List.flatMap_cons, List.flatMap_cons, decode_append,
        decode_look_up sentence complete roomy unnamed.1, ih unnamed.2]

end

/-! ## SentencePiece -/

/-- The pieces of a text that `spm_encode` looks up. -/
def spmPieces (t : Tokenizer) (force : Option Bool) (text : Bytes) : List Bytes :=
  (finalPieces text (spmMerged t force text)).map (slice text)

theorem spm_pieces_flatten (t : Tokenizer) (force : Option Bool) (text : Bytes) :
    (spmPieces t force text).flatten = text := by
  by_cases empty : text = []
  · subst empty
    rfl
  · rw [spmPieces, tiles_text (spm_groups t force empty).tiles, slice]
    simp

/-- What `tok_encode_raw` and `tok_decode` make of a text, whatever stands in memory
behind the buffers. -/
def Lossless (t : Tokenizer) (force : Option Bool) (cap : Nat) (text : Bytes) : Prop :=
  ∀ behind : Nat → Bytes, (∀ k, 4 ≤ (behind k).length) →
    ∀ room, (rawIds t force behind text).length ≤ room →
      decodeAll t cap (tokEncodeRaw t force behind text room) = text

theorem lossless_ids {t : Tokenizer} {force : Option Bool} {cap : Nat} {text : Bytes} :
    Lossless t force cap text ↔ ∀ behind : Nat → Bytes, (∀ k, 4 ≤ (behind k).length) →
      decodeAll t cap (rawIds t force behind text) = text := by
  constructor
  · intro lossless behind enough
    have whole := lossless behind enough _ (Nat.le_refl _)
    rwa [tokEncodeRaw, List.take_length] at whole
  · intro whole behind enough room fits
    rw [tokEncodeRaw, List.take_of_length_le fits]
    exact whole behind enough

/-- A piece of a marked text is no byte piece if the text spells none. -/
theorem piece_unnamed {text piece : Bytes} (spelled : ∀ b, ¬byteName b <:+: text)
    (inside : piece <:+: mark text) (b : UInt8) : piece ≠ byteName b := by
  intro same
  apply spelled b
  rw [same] at inside
  exact mark_infix (List.cons_ne_nil _ _) (byte_name_clean b) inside

theorem spm_lossless_iff {t : Tokenizer} (force : Option Bool) {cap : Nat} {text : Bytes}
    (model : t.model = .spm) (complete : SpmComplete t) (roomy : Roomy t cap)
    (unmarked : ¬marker <:+: text) (spelled : ∀ b, ¬byteName b <:+: text) :
    Lossless t force cap text ↔
      foundMarks (inVocab t) (spmPieces t force (mark text)) = text.count space := by
  have sentence : t.model ≠ .bpe := by
    rw [model]
    decide
  have tiles := spm_pieces_flatten t force (mark text)
  have unnamed : ∀ u ∈ spmPieces t force (mark text), ∀ b, u ≠ byteName b := by
    intro u inside b
    apply piece_unnamed spelled
    have part := List.infix_of_mem_flatten inside
    rwa [tiles] at part
  have ids : ∀ behind, rawIds t force behind text =
      (spmPieces t force (mark text)).flatMap (lookUp t) := by
    intro behind
    simp only [rawIds, model, spmEncodeText, Bool.and_false, Bool.false_and, Bool.false_eq_true,
      if_false, List.nil_append, spmEncode, spmPieces, List.flatMap_map]
  rw [lossless_ids, ← read_back_iff unmarked tiles]
  constructor
  · intro whole
    have here := whole (fun _ => [0, 0, 0, 0]) fun _ => Nat.le_refl 4
    rwa [ids, decode_units sentence complete roomy unnamed] at here
  · intro whole behind _
    rw [ids, decode_units sentence complete roomy unnamed]
    exact whole

/-! ## SentencePiece-style BPE -/

/-- The pieces of a word that `bpe_word` looks up. -/
def bpePieces (t : Tokenizer) (force : Option Bool) (w : Bytes) : List Bytes :=
  (finalPieces w (bpeMerged t force w)).map (slice w)

theorem bpe_pieces_flatten (t : Tokenizer) (force : Option Bool) (w : Bytes) :
    (bpePieces t force w).flatten = w := by
  by_cases empty : w = []
  · subst empty
    rfl
  · rw [bpePieces, tiles_text (bpe_groups t force empty).tiles, slice]
    simp

/-- A character that its piece holds all claimed bytes of. -/
def complete (c : Bytes) : Prop := c.length = u8Len (c.headD 0)

/-- A character that the end of the text cuts short. -/
def CutShort (c : Bytes) (rest : List Bytes) : Prop := (c :: rest).flatten.length < u8Len (c.headD 0)

/-- Every symbol is a complete character, or cut short by the end. -/
theorem characters_cases {text : Bytes} {front : List Bytes} {c : Bytes} {rest : List Bytes}
    (split : characters text = front ++ c :: rest) : c ≠ [] ∧ (complete c ∨ CutShort c rest) := by
  induction front generalizing text with
  | nil =>
      rcases text with _ | ⟨a, s⟩
      · cases split
      · rw [characters_cons, List.nil_append] at split
        injection split with here later
        have positive := clamp_bounds a s
        have head : c.headD 0 = a := by
          rw [← here]
          obtain ⟨n, count⟩ := Nat.exists_eq_succ_of_ne_zero (Nat.pos_iff_ne_zero.mp positive.1)
          rw [count]
          rfl
        have count : c.length = clamp a s := by
          rw [← here, List.length_take]
          exact Nat.min_eq_left positive.2
        have some_ : c ≠ [] := by
          intro empty
          rw [empty, List.length_nil] at count
          omega
        refine ⟨some_, ?_⟩
        rw [complete, CutShort, head, count, ← later, List.flatten_cons, characters_flatten, ← here,
          List.take_append_drop, List.length_cons, clamp]
        by_cases short : s.length + 1 < u8Len a
        · exact Or.inr short
        · left
          rw [if_neg short]
  | cons b front ih =>
      rcases text with _ | ⟨a, s⟩
      · cases split
      · rw [characters_cons, List.cons_append] at split
        injection split with _ later
        exact ih later

/-! ### Characters of a piece -/

theorem chars_at_rounds (rounds more : Nat) (memory : Bytes) (left : Nat) (enough : left ≤ rounds)
    (enough' : left ≤ more) : charsAt rounds memory left = charsAt more memory left := by
  induction rounds generalizing more memory left with
  | zero =>
      have none_ : left = 0 := Nat.le_zero.mp enough
      subst none_
      cases more with
      | zero => rfl
      | succ more => cases memory <;> rfl
  | succ rounds ih =>
      rcases more with _ | more
      · have none_ : left = 0 := Nat.le_zero.mp enough'
        subst none_
        cases memory <;> rfl
      rcases memory with _ | ⟨c, memory⟩
      · rfl
      rcases left with _ | left
      · rfl
      have positive := u8_len_pos c
      simp only [charsAt]
      rw [ih more _ _ (by omega) (by omega)]

theorem chars_at_zero (rounds : Nat) (memory : Bytes) : charsAt rounds memory 0 = [] := by
  cases rounds with
  | zero => rfl
  | succ rounds => cases memory <;> rfl

theorem chars_at_cons (c : UInt8) (memory : Bytes) {left : Nat} (some_ : 0 < left) :
    charsAt left (c :: memory) left = (c :: memory).take (u8Len c) ::
      charsAt (left - u8Len c) ((c :: memory).drop (u8Len c)) (left - u8Len c) := by
  obtain ⟨n, count⟩ := Nat.exists_eq_succ_of_ne_zero (Nat.pos_iff_ne_zero.mp some_)
  subst count
  have positive := u8_len_pos c
  simp only [charsAt]
  rw [chars_at_rounds n (n.succ - u8Len c) _ _ (by omega) (Nat.le_refl _)]

theorem chars_at_short (rounds : Nat) (memory : Bytes) (left : Nat) :
    ∀ u ∈ charsAt rounds memory left, u.length ≤ 4 := by
  induction rounds generalizing memory left with
  | zero => simp [charsAt]
  | succ rounds ih =>
      rcases memory with _ | ⟨c, memory⟩
      · simp [charsAt]
      rcases left with _ | left
      · simp [charsAt]
      intro u inside
      rw [charsAt, List.mem_cons] at inside
      rcases inside with here | later
      · have most := u8_len_le c
        rw [here, List.length_take]
        omega
      · exact ih _ _ u later

/-- The symbols of a word from some place on. -/
def Symbols (symbols : List Bytes) : Prop :=
  ∀ front c rest, symbols = front ++ c :: rest → c ≠ [] ∧ (complete c ∨ CutShort c rest)

theorem symbols_tail {front symbols : List Bytes} (whole : Symbols (front ++ symbols)) :
    Symbols symbols := by
  intro before c rest split
  apply whole (front ++ before) c rest
  rw [split, List.append_assoc]

theorem complete_cons {c : Bytes} (some_ : c ≠ []) (whole : complete c) :
    ∃ a s, c = a :: s ∧ (a :: s).length = u8Len a := by
  cases c with
  | nil => exact absurd rfl some_
  | cons a s => exact ⟨a, s, rfl, whole⟩

/-- Complete symbols are the characters of their piece, whatever follows it. -/
theorem chars_at_complete {group : List Bytes} (each : ∀ c ∈ group, c ≠ [] ∧ complete c)
    (memory : Bytes) :
    charsAt group.flatten.length (group.flatten ++ memory) group.flatten.length = group := by
  induction group with
  | nil => exact chars_at_zero _ _
  | cons c group ih =>
      rw [List.forall_mem_cons] at each
      rcases complete_cons each.1.1 each.1.2 with ⟨a, s, shape, count⟩
      subst shape
      have left : ((a :: s) :: group).flatten.length = u8Len a + group.flatten.length := by
        rw [List.flatten_cons, List.length_append, count]
      have text : ((a :: s) :: group).flatten ++ memory = a :: (s ++ (group.flatten ++ memory)) := by
        simp
      have positive := u8_len_pos a
      have parts : a :: (s ++ (group.flatten ++ memory)) = (a :: s) ++ (group.flatten ++ memory) := rfl
      rw [left, text, chars_at_cons _ _ (by omega), Nat.add_sub_cancel_left, parts,
        List.take_left' count, List.drop_left' count, ih each.2]

/-- A symbol cut short is no complete character of its piece. -/
theorem chars_at_cut {group rest : List Bytes} (symbols : Symbols (group ++ rest))
    (bad : ∃ c ∈ group, ¬complete c) :
    ∃ u ∈ charsAt group.flatten.length group.flatten group.flatten.length, ¬complete u := by
  induction group with
  | nil =>
      rcases bad with ⟨c, inside, _⟩
      cases inside
  | cons c group ih =>
      rcases symbols [] c (group ++ rest) rfl with ⟨some_, cases_⟩
      rcases c with _ | ⟨a, s⟩
      · exact absurd rfl some_
      have positive : 0 < ((a :: s) :: group).flatten.length := by
        rw [List.flatten_cons, List.length_append, List.length_cons]
        omega
      have text : ((a :: s) :: group).flatten = a :: (s ++ group.flatten) := by simp
      rw [text] at positive ⊢
      rw [chars_at_cons _ _ positive]
      by_cases here : complete (a :: s)
      · have count : (a :: s).length = u8Len a := here
        have later : ∃ c ∈ group, ¬complete c := by
          rcases bad with ⟨c, inside, not_complete⟩
          rw [List.mem_cons] at inside
          rcases inside with same | inside
          · rw [same] at not_complete
            exact absurd here not_complete
          · exact ⟨c, inside, not_complete⟩
        rcases ih (@symbols_tail [a :: s] _ symbols) later with ⟨u, inside, not_complete⟩
        refine ⟨u, ?_, not_complete⟩
        have parts : a :: (s ++ group.flatten) = (a :: s) ++ group.flatten := rfl
        have left : (a :: (s ++ group.flatten)).length - u8Len a = group.flatten.length := by
          rw [parts, List.length_append, count, Nat.add_sub_cancel_left]
        rw [left, parts, List.drop_left' count]
        exact List.mem_cons_of_mem _ inside
      · have short : CutShort (a :: s) (group ++ rest) := by
          rcases cases_ with whole | short
          · exact absurd whole here
          · exact short
        rw [CutShort, List.flatten_cons, List.flatten_append, List.length_append,
          List.length_append] at short
        refine ⟨_, List.mem_cons_self, ?_⟩
        intro whole
        have head : ((a :: (s ++ group.flatten)).take (u8Len a)).headD 0 = a := by
          obtain ⟨n, count⟩ := Nat.exists_eq_succ_of_ne_zero (Nat.pos_iff_ne_zero.mp (u8_len_pos a))
          rw [count]
          rfl
        rw [complete, head, List.length_take] at whole
        simp only [List.length_cons, List.length_append, List.headD_cons] at whole short
        omega

/-- What stands behind a word: no byte of a marker comes first. -/
def Stops (behind : Bytes) : Prop := ∃ a rest, behind = a :: rest ∧ a ∉ marker ∧ 3 ≤ rest.length

theorem u8_len_marker {h : UInt8} (four : u8Len h = 4) : h ≠ 0xE2 := by
  intro here
  rw [here] at four
  exact absurd four (by decide)

/-- A character that runs past its word holds no marker. -/
theorem marks_past {h : UInt8} {x : Bytes} {behind : Bytes} (stops : Stops behind)
    (short : (h :: x).length < u8Len h) :
    marks ((h :: x ++ behind).take (u8Len h)) = 0 ∧
      ((h :: x ++ behind).take (u8Len h)).length = u8Len h := by
  rcases stops with ⟨a, rest, shape, not_marker, enough⟩
  have most := u8_len_le h
  constructor
  · subst shape
    simp only [marker, List.mem_cons, List.not_mem_nil, or_false, not_or] at not_marker
    rcases rest with _ | ⟨r, _ | ⟨r', rest⟩⟩
    · simp at enough
    · simp at enough
    rcases x with _ | ⟨x, _ | ⟨x', _ | ⟨x'', x⟩⟩⟩
    · have length_ : u8Len h = 2 ∨ u8Len h = 3 ∨ u8Len h = 4 := by
        simp only [List.length_cons, List.length_nil] at short
        omega
      rcases length_ with two | three | four
      · rw [two]
        rfl
      · rw [three]
        simp [marks, not_marker]
      · rw [four]
        simp [marks, not_marker]
    · have length_ : u8Len h = 3 ∨ u8Len h = 4 := by
        simp only [List.length_cons, List.length_nil] at short
        omega
      rcases length_ with three | four
      · rw [three]
        simp [marks, not_marker]
      · rw [four]
        simp [marks, not_marker, u8_len_marker four]
    · have four : u8Len h = 4 := by
        simp only [List.length_cons, List.length_nil] at short
        omega
      rw [four]
      simp [marks, not_marker, u8_len_marker four]
    · simp only [List.length_cons] at short
      omega
  · have long : 4 ≤ behind.length := by
      rw [shape, List.length_cons]
      omega
    rw [List.length_take, List.length_append]
    omega

/-- The fallback loses no byte of its piece, and reads more where a character runs
past the word. -/
theorem chars_at_length (found : Bytes → Bool) {group rest : List Bytes} {behind : Bytes}
    (symbols : Symbols (group ++ rest)) (stops : (∃ c ∈ group, ¬complete c) → Stops behind) :
    group.flatten.length ≤
        ((charsAt group.flatten.length (group.flatten ++ (rest.flatten ++ behind))
          group.flatten.length).flatMap (readBack found)).length + 2 * marks group.flatten ∧
      ((∃ c ∈ group, ¬complete c) → group.flatten.length <
        ((charsAt group.flatten.length (group.flatten ++ (rest.flatten ++ behind))
          group.flatten.length).flatMap (readBack found)).length + 2 * marks group.flatten) := by
  have one : ∀ u : Bytes, u.length ≤ (readBack found u).length + 2 * marks u := by
    intro u
    have whole := plain_length u
    rw [readBack]
    split_ifs <;> omega
  induction group with
  | nil =>
      refine ⟨Nat.zero_le _, ?_⟩
      rintro ⟨c, inside, _⟩
      cases inside
  | cons c group ih =>
      rcases symbols [] c (group ++ rest) rfl with ⟨some_, cases_⟩
      rcases c with _ | ⟨a, s⟩
      · exact absurd rfl some_
      have positive : 0 < ((a :: s) :: group).flatten.length := by
        rw [List.flatten_cons, List.length_append, List.length_cons]
        omega
      have text : ((a :: s) :: group).flatten ++ (rest.flatten ++ behind) =
          a :: (s ++ (group.flatten ++ (rest.flatten ++ behind))) := by simp
      rw [text, chars_at_cons _ _ positive]
      by_cases here : complete (a :: s)
      · have count : (a :: s).length = u8Len a := here
        have tail := ih (@symbols_tail [a :: s] _ symbols) (by
          rintro ⟨c, inside, not_complete⟩
          exact stops ⟨c, List.mem_cons_of_mem _ inside, not_complete⟩)
        have parts : a :: (s ++ (group.flatten ++ (rest.flatten ++ behind))) =
            (a :: s) ++ (group.flatten ++ (rest.flatten ++ behind)) := rfl
        have left : ((a :: s) :: group).flatten.length - u8Len a = group.flatten.length := by
          rw [List.flatten_cons, List.length_append, count, Nat.add_sub_cancel_left]
        have joined : marks (a :: s) + marks group.flatten ≤ marks ((a :: s) :: group).flatten := by
          rw [List.flatten_cons]
          rcases plain_append (a :: s) group.flatten with ⟨same, _⟩ | more
          · omega
          · omega
        have first := one (a :: s)
        rw [left, parts, List.take_left' count, List.drop_left' count, List.flatMap_cons,
          List.length_append, List.flatten_cons, List.length_append]
        rw [List.flatten_cons] at joined
        refine ⟨by omega, ?_⟩
        rintro ⟨c, inside, not_complete⟩
        rw [List.mem_cons] at inside
        rcases inside with same | inside
        · rw [same] at not_complete
          exact absurd here not_complete
        · have more := tail.2 ⟨c, inside, not_complete⟩
          omega
      · -- the character runs past everything that is left of the word
        have short : CutShort (a :: s) (group ++ rest) := by
          rcases cases_ with whole | short
          · exact absurd whole here
          · exact short
        rw [CutShort, List.headD_cons] at short
        have past := marks_past (h := a) (x := s ++ (group ++ rest).flatten)
          (stops ⟨a :: s, List.mem_cons_self, here⟩) (by simpa using short)
        have same : a :: (s ++ (group.flatten ++ (rest.flatten ++ behind))) =
            a :: (s ++ (group ++ rest).flatten) ++ behind := by simp
        have whole : ((a :: s) :: group).flatten.length < u8Len a := by
          rw [← List.cons_append, List.flatten_append, List.length_append] at short
          omega
        have alone := one ((a :: (s ++ (group ++ rest).flatten) ++ behind).take (u8Len a))
        rw [past.1, past.2] at alone
        rw [same, List.flatMap_cons, List.length_append]
        refine ⟨by omega, ?_⟩
        intro _
        omega

/-! ### Words -/

/-- What `bpe_word` looks a piece up as, itself or its characters. -/
def unitsOf (t : Tokenizer) (memory piece : Bytes) : List Bytes :=
  if inVocab t piece then [piece] else charsAt piece.length (piece ++ memory) piece.length

/-- The units of the pieces of a word. -/
def wordUnits (t : Tokenizer) (behind : Bytes) : List Bytes → List Bytes
  | [] => []
  | p :: ps => unitsOf t (ps.flatten ++ behind) p ++ wordUnits t behind ps

theorem bpe_emit_units (t : Tokenizer) {w behind : Bytes} {i : Nat} {spans : List Span}
    (tiles : Tiles w.length i spans) :
    spans.flatMap (bpeEmit t (w ++ behind)) =
      (wordUnits t behind (spans.map (slice w))).flatMap (lookUp t) := by
  induction spans generalizing i with
  | nil => rfl
  | cons span spans ih =>
      rcases tiles with ⟨here, later⟩
      have le := tiles_le later
      have text := @tiles_text w _ _ _ later
      have before : slice (w ++ behind) span = slice w span := by
        rw [slice, slice, List.drop_append_of_le_length (by omega),
          List.take_append_of_le_length (by rw [List.length_drop]; omega)]
      have memory : (w ++ behind).drop span.1 =
          slice w span ++ ((spans.map (slice w)).flatten ++ behind) := by
        have rest : slice w (i + span.2, w.length - (i + span.2)) = w.drop (i + span.2) := by
          rw [slice, List.take_of_length_le]
          rw [List.length_drop]
        rw [text, rest, slice, here, List.drop_append_of_le_length (by omega), ← List.append_assoc,
          ← List.drop_drop, List.take_append_drop]
      have length_ : (slice w span).length = span.2 := by
        rw [slice, List.length_take, List.length_drop]
        omega
      rw [List.flatMap_cons, List.map_cons, wordUnits, List.flatMap_append, ih later, bpeEmit, before,
        memory, unitsOf, inVocab, length_]
      rcases found : hmapGet t.tokens (slice w span) with _ | id
      · rfl
      · simp [lookUp, found]

theorem bpe_word_units (t : Tokenizer) (force : Option Bool) (w behind : Bytes) :
    bpeWord t force w behind = (wordUnits t behind (bpePieces t force w)).flatMap (lookUp t) := by
  by_cases empty : w = []
  · subst empty
    rfl
  · rw [bpeWord, bpePieces]
    exact bpe_emit_units t (bpe_groups t force empty).tiles

/-- A piece that is not found and holds a character that runs past it. -/
def RunsPast (t : Tokenizer) (piece : Bytes) : Prop :=
  inVocab t piece = false ∧ ∃ u ∈ charsAt piece.length piece piece.length, ¬complete u

theorem unit_length (t : Tokenizer) {group rest : List Bytes} {behind : Bytes}
    (symbols : Symbols (group ++ rest)) (stops : (∃ c ∈ group, ¬complete c) → Stops behind) :
    group.flatten.length ≤
        ((unitsOf t (rest.flatten ++ behind) group.flatten).flatMap (readBack (inVocab t))).length +
          2 * marks group.flatten ∧
      (RunsPast t group.flatten → group.flatten.length <
        ((unitsOf t (rest.flatten ++ behind) group.flatten).flatMap (readBack (inVocab t))).length +
          2 * marks group.flatten) := by
  rw [unitsOf]
  by_cases found : inVocab t group.flatten = true
  · have whole := plain_length group.flatten
    rw [if_pos found]
    simp only [List.flatMap_cons, List.flatMap_nil, List.append_nil, readBack, if_pos found]
    refine ⟨by omega, ?_⟩
    rintro ⟨missing, _⟩
    rw [missing] at found
    cases found
  · have lengths := chars_at_length (inVocab t) symbols stops
    rw [if_neg found]
    refine ⟨lengths.1, ?_⟩
    rintro ⟨_, u, inside, not_complete⟩
    apply lengths.2
    by_contra all
    have each : ∀ c ∈ group, c ≠ [] ∧ complete c := by
      intro c in_group
      refine ⟨?_, ?_⟩
      · rcases List.append_of_mem in_group with ⟨front, back, split⟩
        exact (symbols front c (back ++ rest) (by rw [split]; simp)).1
      · by_contra bad
        exact all ⟨c, in_group, bad⟩
    have own := chars_at_complete each []
    rw [List.append_nil] at own
    rw [own] at inside
    exact not_complete (each u inside).2

theorem units_whole (t : Tokenizer) {group rest : List Bytes} (memory : Bytes)
    (symbols : Symbols (group ++ rest)) (fine : ¬RunsPast t group.flatten) :
    unitsOf t memory group.flatten = unitsOf t [] group.flatten ∧
      (unitsOf t [] group.flatten).flatten = group.flatten := by
  rw [unitsOf, unitsOf, List.append_nil]
  by_cases found : inVocab t group.flatten = true
  · rw [if_pos found, if_pos found]
    exact ⟨rfl, List.flatten_singleton⟩
  · have each : ∀ c ∈ group, c ≠ [] ∧ complete c := by
      intro c in_group
      refine ⟨?_, ?_⟩
      · rcases List.append_of_mem in_group with ⟨front, back, split⟩
        exact (symbols front c (back ++ rest) (by rw [split]; simp)).1
      · by_contra bad
        exact fine ⟨by simpa using found, chars_at_cut symbols ⟨c, in_group, bad⟩⟩
    have own := chars_at_complete each []
    rw [List.append_nil] at own
    rw [if_neg found, if_neg found, chars_at_complete each memory, own]
    exact ⟨rfl, rfl⟩

/-- The pieces of a word, from some piece on. -/
theorem word_units_length (t : Tokenizer) {behind : Bytes} (groups : List (List Bytes))
    (symbols : Symbols groups.flatten) (stops : (∃ c ∈ groups.flatten, ¬complete c) → Stops behind) :
    groups.flatten.flatten.length ≤
        ((wordUnits t behind (groups.map List.flatten)).flatMap (readBack (inVocab t))).length +
          2 * marks groups.flatten.flatten ∧
      ((∃ p ∈ groups.map List.flatten, RunsPast t p) → groups.flatten.flatten.length <
        ((wordUnits t behind (groups.map List.flatten)).flatMap (readBack (inVocab t))).length +
          2 * marks groups.flatten.flatten) := by
  induction groups with
  | nil =>
      refine ⟨Nat.zero_le _, ?_⟩
      rintro ⟨p, inside, _⟩
      cases inside
  | cons group groups ih =>
      rw [List.flatten_cons] at symbols stops
      have here := @unit_length t _ _ behind symbols (by
        rintro ⟨c, inside, bad⟩
        exact stops ⟨c, List.mem_append_left _ inside, bad⟩)
      have tail := ih (symbols_tail symbols) (by
        rintro ⟨c, inside, bad⟩
        exact stops ⟨c, List.mem_append_right _ inside, bad⟩)
      have joined : marks group.flatten + marks groups.flatten.flatten ≤
          marks (group.flatten ++ groups.flatten.flatten) := by
        rcases plain_append group.flatten groups.flatten.flatten with ⟨same, _⟩ | more
        · omega
        · omega
      have rest : (groups.map List.flatten).flatten = groups.flatten.flatten := by
        rw [List.flatten_flatten]
      rw [List.map_cons, wordUnits, rest, List.flatten_cons, List.flatten_append, List.flatMap_append,
        List.length_append, List.length_append]
      refine ⟨by omega, ?_⟩
      rintro ⟨p, inside, bad⟩
      rw [List.mem_cons] at inside
      rcases inside with same | inside
      · rw [same] at bad
        have more := here.2 bad
        omega
      · have more := tail.2 ⟨p, inside, bad⟩
        omega

theorem word_units_whole (t : Tokenizer) (behind : Bytes) (groups : List (List Bytes))
    (symbols : Symbols groups.flatten) (fine : ∀ p ∈ groups.map List.flatten, ¬RunsPast t p) :
    wordUnits t behind (groups.map List.flatten) = (groups.map List.flatten).flatMap (unitsOf t []) ∧
      ((groups.map List.flatten).flatMap (unitsOf t [])).flatten = groups.flatten.flatten := by
  induction groups with
  | nil => exact ⟨rfl, rfl⟩
  | cons group groups ih =>
      rw [List.flatten_cons] at symbols
      rw [List.map_cons, List.forall_mem_cons] at fine
      have here := units_whole t ((groups.map List.flatten).flatten ++ behind) symbols fine.1
      have tail := ih (symbols_tail symbols) fine.2
      rw [List.map_cons, wordUnits, here.1, tail.1, List.flatMap_cons, List.flatten_append, here.2,
        tail.2, List.flatten_cons, List.flatten_append]
      exact ⟨rfl, rfl⟩

/-- The groups of symbols that the pieces of a word are. -/
theorem bpe_pieces_groups (t : Tokenizer) (force : Option Bool) (w : Bytes) :
    ∃ groups : List (List Bytes), bpePieces t force w = groups.map List.flatten ∧
      Symbols groups.flatten ∧ groups.flatten = characters w := by
  by_cases empty : w = []
  · subst empty
    refine ⟨[], rfl, ?_, rfl⟩
    intro front c rest split
    simp at split
  · rcases (bpe_groups t force empty).groups with ⟨groups, symbols, texts, _⟩
    refine ⟨groups, texts, ?_, symbols⟩
    intro front c rest split
    rw [symbols] at split
    exact characters_cases split

/-! ### Newline runs -/

theorem newline_runs_flatten (rounds : Nat) (s : Bytes) (enough : s.length ≤ rounds) :
    (newlineRuns rounds s).flatten = s := by
  induction rounds generalizing s with
  | zero =>
      have empty : s = [] := List.length_eq_zero_iff.mp (Nat.le_zero.mp enough)
      subst empty
      rfl
  | succ rounds ih =>
      rcases s with _ | ⟨c, s⟩
      · rfl
      have shorter : ((c :: s).dropWhile fun x : UInt8 =>
          decide (x = lineFeed) == decide (c = lineFeed)).length ≤ s.length := by
        simpa using (List.dropWhile_suffix _).length_le
      simp only [List.length_cons] at enough
      rw [newlineRuns, List.flatten_cons, ih _ (by omega), List.takeWhile_append_dropWhile]

/-- A run with a character that runs past it is no run of newlines, so a newline
follows it, or what is behind the buffer. -/
theorem run_stops {c : UInt8} {s behind : Bytes} (stops : Stops behind) (long : 4 ≤ behind.length)
    (bad : ∃ u ∈ characters ((c :: s).takeWhile fun x : UInt8 =>
      decide (x = lineFeed) == decide (c = lineFeed)), ¬complete u) :
    Stops ((c :: s).dropWhile (fun x : UInt8 => decide (x = lineFeed) == decide (c = lineFeed)) ++
      behind) := by
  have not_line : c ≠ lineFeed := by
    intro line
    rcases bad with ⟨u, inside, not_complete⟩
    rcases List.append_of_mem inside with ⟨front, rest, split⟩
    have lines : ∀ b ∈ (c :: s).takeWhile (fun x : UInt8 =>
        decide (x = lineFeed) == decide (c = lineFeed)), b = lineFeed := by
      intro b in_run
      have same := List.all_eq_true.mp List.all_takeWhile b in_run
      simpa [line] using same
    rcases characters_cases split with ⟨some_, whole | short⟩
    · exact not_complete whole
    · rcases u with _ | ⟨b, u⟩
      · exact some_ rfl
      · have in_run : b ∈ (c :: s).takeWhile (fun x : UInt8 =>
            decide (x = lineFeed) == decide (c = lineFeed)) := by
          rw [← characters_flatten ((c :: s).takeWhile _), split]
          simp
        rw [CutShort, List.headD_cons, lines b in_run] at short
        have one : u8Len lineFeed = 1 := rfl
        rw [one, List.flatten_cons, List.length_append, List.length_cons] at short
        omega
  have head := List.head?_dropWhile_not
    (fun x : UInt8 => decide (x = lineFeed) == decide (c = lineFeed)) (c :: s)
  rcases rest : (c :: s).dropWhile (fun x : UInt8 =>
    decide (x = lineFeed) == decide (c = lineFeed)) with _ | ⟨d, rest'⟩
  · exact stops
  · rw [rest] at head
    have line : d = lineFeed := by simpa [not_line] using head
    refine ⟨d, rest' ++ behind, rfl, ?_, ?_⟩
    · rw [line]
      decide
    · rw [List.length_append]
      omega

/-- The units of all words of a buffer. -/
def bufferUnits (t : Tokenizer) (force : Option Bool) (behind : Bytes) : List Bytes → List Bytes
  | [] => []
  | run :: runs =>
      wordUnits t (runs.flatten ++ behind) (bpePieces t force run) ++ bufferUnits t force behind runs

theorem words_of_units (t : Tokenizer) (force : Option Bool) (behind : Bytes) (runs : List Bytes) :
    wordsOf t force behind runs = (bufferUnits t force behind runs).flatMap (lookUp t) := by
  induction runs with
  | nil => rfl
  | cons run runs ih =>
      rw [wordsOf, bufferUnits, List.flatMap_append, ih, bpe_word_units]

/-- All pieces of the newline runs. -/
def runPieces (t : Tokenizer) (force : Option Bool) (text : Bytes) : List Bytes :=
  (newlineRuns text.length text).flatMap (bpePieces t force)

theorem buffer_units_length (t : Tokenizer) (force : Option Bool) {behind : Bytes}
    (stops : Stops behind) (long : 4 ≤ behind.length) (rounds : Nat) (s : Bytes)
    (enough : s.length ≤ rounds) :
    s.length ≤ ((bufferUnits t force behind (newlineRuns rounds s)).flatMap
        (readBack (inVocab t))).length + 2 * marks s ∧
      ((∃ p ∈ (newlineRuns rounds s).flatMap (bpePieces t force), RunsPast t p) → s.length <
        ((bufferUnits t force behind (newlineRuns rounds s)).flatMap
          (readBack (inVocab t))).length + 2 * marks s) := by
  induction rounds generalizing s with
  | zero =>
      have empty : s = [] := List.length_eq_zero_iff.mp (Nat.le_zero.mp enough)
      subst empty
      refine ⟨Nat.zero_le _, ?_⟩
      rintro ⟨p, inside, _⟩
      cases inside
  | succ rounds ih =>
      rcases s with _ | ⟨c, s⟩
      · refine ⟨Nat.zero_le _, ?_⟩
        rintro ⟨p, inside, _⟩
        cases inside
      simp only [List.length_cons] at enough
      have parts := List.takeWhile_append_dropWhile
        (p := fun x : UInt8 => decide (x = lineFeed) == decide (c = lineFeed)) (l := c :: s)
      have shorter : ((c :: s).dropWhile fun x : UInt8 =>
          decide (x = lineFeed) == decide (c = lineFeed)).length ≤ s.length := by
        simpa using (List.dropWhile_suffix _).length_le
      have stops_run := run_stops (c := c) (s := s) stops long
      rw [newlineRuns, bufferUnits, newline_runs_flatten _ _ (by omega), List.flatMap_cons,
        List.flatMap_append, List.length_append]
      generalize (c :: s).takeWhile (fun x : UInt8 => decide (x = lineFeed) == decide (c = lineFeed)) =
        run at parts stops_run ⊢
      generalize (c :: s).dropWhile (fun x : UInt8 => decide (x = lineFeed) == decide (c = lineFeed)) =
        rest at parts shorter stops_run ⊢
      have tail := ih rest (by omega)
      rcases bpe_pieces_groups t force run with ⟨groups, texts, symbols, characters_⟩
      have here := @word_units_length t (rest ++ behind) groups symbols (by
        rw [characters_]
        exact stops_run)
      rw [characters_, characters_flatten, ← texts] at here
      have whole : (c :: s).length = run.length + rest.length := by
        rw [← parts, List.length_append]
      have joined : marks run + marks rest ≤ marks (c :: s) := by
        rw [← parts]
        rcases plain_append run rest with ⟨same, _⟩ | more
        · omega
        · omega
      refine ⟨by omega, ?_⟩
      rintro ⟨p, inside, bad⟩
      rw [List.mem_append] at inside
      rcases inside with first | later
      · have more := here.2 ⟨p, first, bad⟩
        omega
      · have more := tail.2 ⟨p, later, bad⟩
        omega

theorem buffer_units_whole (t : Tokenizer) (force : Option Bool) (behind : Bytes) (runs : List Bytes)
    (fine : ∀ p ∈ runs.flatMap (bpePieces t force), ¬RunsPast t p) :
    bufferUnits t force behind runs =
        (runs.flatMap (bpePieces t force)).flatMap (unitsOf t []) ∧
      ((runs.flatMap (bpePieces t force)).flatMap (unitsOf t [])).flatten = runs.flatten := by
  induction runs with
  | nil => exact ⟨rfl, rfl⟩
  | cons run runs ih =>
      rcases bpe_pieces_groups t force run with ⟨groups, texts, symbols, characters_⟩
      have tail := ih fun p inside => fine p (by simp [inside])
      have here := word_units_whole t (runs.flatten ++ behind) groups symbols (by
        rw [← texts]
        exact fun p inside => fine p (by simp [inside]))
      rw [← texts, characters_, characters_flatten] at here
      rw [bufferUnits, List.flatMap_cons, List.flatMap_append, List.flatten_append, here.1, tail.1,
        here.2, tail.2, List.flatten_cons]
      exact ⟨rfl, rfl⟩

theorem buffer_units_cases (t : Tokenizer) (force : Option Bool) (behind : Bytes)
    (runs : List Bytes) :
    ∀ u ∈ bufferUnits t force behind runs,
      u ∈ runs.flatMap (bpePieces t force) ∨ u.length ≤ 4 := by
  have word : ∀ (behind : Bytes) (ps : List Bytes), ∀ u ∈ wordUnits t behind ps,
      u ∈ ps ∨ u.length ≤ 4 := by
    intro behind ps
    induction ps with
    | nil => simp [wordUnits]
    | cons p ps ih =>
        intro u inside
        rw [wordUnits, List.mem_append] at inside
        rcases inside with here | later
        · rw [unitsOf] at here
          split_ifs at here
          · rw [List.mem_singleton] at here
            exact Or.inl (by simp [here])
          · exact Or.inr (chars_at_short _ _ _ u here)
        · rcases ih u later with inside | short
          · exact Or.inl (List.mem_cons_of_mem _ inside)
          · exact Or.inr short
  induction runs with
  | nil => simp [bufferUnits]
  | cons run runs ih =>
      intro u inside
      rw [bufferUnits, List.mem_append] at inside
      rw [List.flatMap_cons, List.mem_append]
      rcases inside with here | later
      · rcases word _ _ u here with inside | short
        · exact Or.inl (Or.inl inside)
        · exact Or.inr short
      · rcases ih u later with inside | short
        · exact Or.inl (Or.inr inside)
        · exact Or.inr short

theorem run_pieces_inside (t : Tokenizer) (force : Option Bool) (text : Bytes) :
    ∀ p ∈ runPieces t force text, p <:+: text := by
  intro p inside
  rw [runPieces, List.mem_flatMap] at inside
  rcases inside with ⟨run, in_runs, in_run⟩
  have in_text := List.infix_of_mem_flatten in_runs
  have in_word := List.infix_of_mem_flatten in_run
  rw [newline_runs_flatten _ _ (Nat.le_refl _)] at in_text
  rw [bpe_pieces_flatten] at in_word
  exact in_word.trans in_text

theorem bpe_spm_lossless_iff {t : Tokenizer} (force : Option Bool) {cap : Nat} {text : Bytes}
    (model : t.model = .bpeSpm) (complete_ : SpmComplete t) (roomy : Roomy t cap)
    (unmarked : ¬marker <:+: text) (spelled : ∀ b, ¬byteName b <:+: text) :
    Lossless t force cap text ↔
      (∀ p ∈ runPieces t force (mark text), ¬RunsPast t p) ∧
        foundMarks (inVocab t) ((runPieces t force (mark text)).flatMap (unitsOf t [])) =
          text.count space := by
  have sentence : t.model ≠ .bpe := by
    rw [model]
    decide
  have unnamed : ∀ behind, ∀ u ∈ bufferUnits t force behind
      (newlineRuns (mark text).length (mark text)), ∀ b, u ≠ byteName b := by
    intro behind u inside b
    rcases buffer_units_cases t force behind _ u inside with piece | short
    · exact piece_unnamed spelled (run_pieces_inside t force (mark text) u piece) b
    · intro same
      have six : (byteName b).length = 6 := rfl
      rw [same, six] at short
      omega
  have decoded : ∀ behind, decodeAll t cap (rawIds t force behind text) =
      (bufferUnits t force (behind 0) (newlineRuns (mark text).length (mark text))).flatMap
        (readBack (inVocab t)) := by
    intro behind
    simp only [rawIds, model, bpeSpmEncodeText]
    rw [words_of_units, decode_units sentence complete_ roomy (unnamed (behind 0))]
  have whole : (∀ p ∈ runPieces t force (mark text), ¬RunsPast t p) → ∀ behind,
      decodeAll t cap (rawIds t force behind text) =
        ((runPieces t force (mark text)).flatMap (unitsOf t [])).flatMap (readBack (inVocab t)) := by
    intro fine behind
    rw [decoded, (buffer_units_whole t force (behind 0) _ fine).1]
    rfl
  have tiles : (∀ p ∈ runPieces t force (mark text), ¬RunsPast t p) →
      ((runPieces t force (mark text)).flatMap (unitsOf t [])).flatten = mark text := by
    intro fine
    have flat := (buffer_units_whole t force [] _ fine).2
    rwa [newline_runs_flatten _ _ (Nat.le_refl _)] at flat
  rw [lossless_ids]
  constructor
  · intro lossless
    have here := lossless (fun _ => [0, 0, 0, 0]) fun _ => Nat.le_refl 4
    have fine : ∀ p ∈ runPieces t force (mark text), ¬RunsPast t p := by
      intro p inside bad
      -- the output is longer than the text
      have stops : Stops [0, 0, 0, 0] := ⟨0, [0, 0, 0], rfl, by decide, Nat.le_refl 3⟩
      have lengths := (buffer_units_length t force stops (Nat.le_refl 4) _ (mark text)
        (Nat.le_refl _)).2 ⟨p, inside, bad⟩
      have marked := plain_length (mark text)
      rw [(plain_mark unmarked).1] at marked
      rw [decoded] at here
      rw [here] at lengths
      omega
    refine ⟨fine, ?_⟩
    rw [whole fine] at here
    exact (read_back_iff unmarked (tiles fine)).mp here
  · rintro ⟨fine, count⟩ behind _
    rw [whole fine]
    exact (read_back_iff unmarked (tiles fine)).mpr count

end GridcoreRunner.Tok
