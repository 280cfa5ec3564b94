import GridcoreRunner.Tokenizer.Lossless

/-!
# Byte-level BPE

Every byte is a character of the alphabet, and a piece of characters decodes to its
bytes: whatever the splitters cut and the merges join, the text comes back.
-/

namespace GridcoreRunner.Tok

set_option autoImplicit false

/-! ## The alphabet -/

/-- The character of a byte. -/
def letterOf (b : UInt8) : Bytes := u8Encode (b2u b)

theorem letter_facts (b : UInt8) :
    letterOf b ≠ [] ∧ complete (letterOf b) ∧ u8Decode (letterOf b) = b2u b ∧ b2u b < 512 := by
  have all : ∀ n : Fin 256, letterOf (UInt8.ofNat n) ≠ [] ∧
      (letterOf (UInt8.ofNat n)).length = u8Len ((letterOf (UInt8.ofNat n)).headD 0) ∧
      u8Decode (letterOf (UInt8.ofNat n)) = b2u (UInt8.ofNat n) ∧ b2u (UInt8.ofNat n) < 512 := by
    set_option maxRecDepth 4000 in
    decide
  have here := all ⟨b.toNat, b.toNat_lt⟩
  simp only [UInt8.ofNat_toNat] at here
  exact here

/-- `b2u` with the count of the bytes that are moved written out. -/
def movedTo (b : Nat) : Nat :=
  if kept b then b
  else if b < 0x21 then 256 + b
  else if b < 0xA1 then 256 + 0x21 + (b - 0x7F)
  else 256 + 0x43

theorem b2u_moved (b : UInt8) : b2u b = movedTo b.toNat := by
  have all : ∀ n : Fin 256, b2u (UInt8.ofNat n) = movedTo n := by
    set_option maxRecDepth 4000 in
    decide
  have here := all ⟨b.toNat, b.toNat_lt⟩
  simp only [UInt8.ofNat_toNat] at here
  exact here

theorem moved_injective {a b : Nat} (a_byte : a < 256) (b_byte : b < 256)
    (same : movedTo a = movedTo b) : a = b := by
  unfold movedTo kept at same
  simp only [Bool.or_eq_true, decide_eq_true_eq] at same
  split_ifs at same <;> omega

theorem b2u_injective : Function.Injective b2u := by
  intro a b same
  rw [b2u_moved, b2u_moved] at same
  exact UInt8.toNat_inj.mp (moved_injective a.toNat_lt b.toNat_lt same)

/-- `u2b` inverts `b2u`. -/
theorem u2b_b2u (b : UInt8) : u2b (b2u b) = some b := by
  rw [u2b]
  rcases found : (List.range 256).find? fun x => b2u (UInt8.ofNat x) == b2u b with _ | x
  · have missing := List.find?_eq_none.mp found b.toNat (List.mem_range.mpr b.toNat_lt)
    simp at missing
  · have same := List.find?_some found
    have here := b2u_injective (beq_iff_eq.mp same)
    rw [Option.map_some, here]

theorem alphabet_cons (b : UInt8) (word : Bytes) : alphabet (b :: word) = letterOf b ++ alphabet word := by
  rw [alphabet, List.flatMap_cons]
  rfl

theorem alphabet_flatten (word : Bytes) : (word.map letterOf).flatten = alphabet word := by
  rw [alphabet, List.flatMap_def]
  rfl

theorem letter_cons (b : UInt8) : ∃ c s, letterOf b = c :: s ∧ (c :: s).length = u8Len c := by
  rcases letter_facts b with ⟨some_, whole, _, _⟩
  exact complete_cons some_ whole

/-- The symbols of a mapped word are its bytes. -/
theorem characters_alphabet (word : Bytes) : characters (alphabet word) = word.map letterOf := by
  induction word with
  | nil => rfl
  | cons b word ih =>
      rcases letter_cons b with ⟨c, s, shape, count⟩
      have length_ : clamp c (s ++ alphabet word) = (c :: s).length := by
        rw [clamp, count, if_neg]
        rw [List.length_append]
        simp only [List.length_cons] at count
        omega
      rw [alphabet_cons, List.map_cons, shape, List.cons_append, characters_cons, length_,
        ← List.cons_append, List.take_left, List.drop_left, ih]

theorem decode_alphabet (word : Bytes) (rounds room : Nat) (enough : word.length ≤ rounds)
    (fits : word.length ≤ room) : decodeChars rounds room (alphabet word) = word := by
  induction word generalizing rounds room with
  | nil => cases rounds <;> rfl
  | cons b word ih =>
      rcases letter_facts b with ⟨_, _, point, small⟩
      rcases letter_cons b with ⟨c, s, shape, count⟩
      rw [List.length_cons] at enough fits
      rcases rounds with _ | rounds
      · omega
      have some_ : ¬room = 0 := by omega
      have whole : ¬(s ++ alphabet word).length + 1 < u8Len c := by
        rw [List.length_append]
        simp only [List.length_cons] at count
        omega
      have rest := ih rounds (room - 1) (by omega) (by omega)
      rw [shape] at point
      rw [alphabet_cons, shape, List.cons_append, decodeChars, if_neg some_]
      simp only [if_neg whole]
      rw [← List.cons_append, ← count, List.take_left, List.drop_left, point, if_pos small, u2b_b2u]
      simp only [List.length_singleton, List.singleton_append]
      rw [rest]

theorem word_le_alphabet (word : Bytes) : word.length ≤ (alphabet word).length := by
  induction word with
  | nil => exact Nat.le_refl 0
  | cons b word ih =>
      rcases letter_cons b with ⟨c, s, shape, _⟩
      rw [alphabet_cons, shape, List.length_append, List.length_cons, List.length_cons]
      omega

/-! ## Words -/

section

variable {t : Tokenizer} {cap : Nat}

/-- A found piece of letters decodes to its bytes. -/
theorem decode_letters (model : t.model = .bpe) (full : BpeComplete t) (roomy : Roomy t cap)
    {word : Bytes} (found : inVocab t (alphabet word) = true) :
    decodeAll t cap (lookUp t (alphabet word)) = word := by
  rw [inVocab, Option.isSome_iff_exists] at found
  rcases found with ⟨id, at_⟩
  have key := hmap_get_key at_
  have type_ := full.others id (hmap_get_lt at_)
  have room := roomy _ (List.mem_of_getElem? key)
  rw [if_pos model] at room
  have less := word_le_alphabet word
  have text := decode_alphabet word (alphabet word).length cap less (by omega)
  simp [lookUp, at_, decodeAll, tokDecode, key, type_, model, text]

theorem decode_group (model : t.model = .bpe) (full : BpeComplete t) (roomy : Roomy t cap)
    (word memory : Bytes) :
    decodeAll t cap ((unitsOf t memory (alphabet word)).flatMap (lookUp t)) = word := by
  rw [unitsOf]
  by_cases found : inVocab t (alphabet word) = true
  · rw [if_pos found, List.flatMap_singleton]
    exact decode_letters model full roomy found
  · have each : ∀ c ∈ word.map letterOf, c ≠ [] ∧ complete c := by
      intro c inside
      rw [List.mem_map] at inside
      rcases inside with ⟨b, _, same⟩
      rw [← same]
      exact ⟨(letter_facts b).1, (letter_facts b).2.1⟩
    have letters_ := chars_at_complete each memory
    rw [alphabet_flatten] at letters_
    rw [if_neg found, letters_]
    clear letters_ each found
    induction word with
    | nil => rfl
    | cons b word ih =>
        have one : alphabet [b] = letterOf b := by simp [alphabet, letterOf]
        have found : inVocab t (alphabet [b]) = true := by
          rw [one]
          exact full.bytes b
        have here := decode_letters model full roomy found
        rw [one] at here
        rw [List.map_cons, List.flatMap_cons, decode_append, here, ih, List.singleton_append]

theorem decode_word (model : t.model = .bpe) (full : BpeComplete t) (roomy : Roomy t cap)
    (force : Option Bool) (word behind : Bytes) :
    decodeAll t cap (bpeWord t force (alphabet word) behind) = word := by
  rcases bpe_pieces_groups t force (alphabet word) with ⟨groups, texts, symbols, characters_⟩
  rw [bpe_word_units, texts]
  rw [characters_alphabet] at characters_
  clear texts symbols
  induction groups generalizing word with
  | nil =>
      have empty : word = [] := List.map_eq_nil_iff.mp characters_.symm
      subst empty
      rfl
  | cons group groups ih =>
      rw [List.flatten_cons] at characters_
      rcases List.map_eq_append_iff.mp characters_.symm with ⟨front, back, split, first, later⟩
      subst split
      have text : group.flatten = alphabet front := by rw [← first, alphabet_flatten]
      rw [List.map_cons, wordUnits, List.flatMap_append, decode_append, text,
        decode_group model full roomy, ih back later.symm]

end

theorem pre_tokens_flatten (next : List Nat → Nat) (rounds : Nat) (chars : List Bytes)
    (enough : chars.length ≤ rounds) : (preTokens next rounds chars).flatten = chars.flatten := by
  induction rounds generalizing chars with
  | zero =>
      have empty : chars = [] := List.length_eq_zero_iff.mp (Nat.le_zero.mp enough)
      subst empty
      rfl
  | succ rounds ih =>
      rcases chars with _ | ⟨c, chars⟩
      · rfl
      simp only [preTokens, List.flatten_cons]
      rw [List.length_cons] at enough
      rw [ih _ (by rw [List.length_drop, List.length_cons]; split_ifs <;> omega),
        ← List.flatten_append, List.take_append_drop, List.flatten_cons]

/-- Byte-level BPE loses nothing. -/
theorem bpe_lossless {t : Tokenizer} (force : Option Bool) {cap : Nat} (text : Bytes)
    (model : t.model = .bpe) (full : BpeComplete t) (roomy : Roomy t cap) :
    Lossless t force cap text := by
  rw [lossless_ids]
  intro behind _
  have words : ∀ (ws : List Bytes) (k : Nat),
      decodeAll t cap ((ws.zipIdx k).flatMap fun at_ =>
        bpeWord t force (alphabet at_.1) (behind at_.2)) = ws.flatten := by
    intro ws
    induction ws with
    | nil =>
        intro k
        rfl
    | cons w ws ih =>
        intro k
        rw [List.zipIdx_cons, List.flatMap_cons, decode_append, ih, List.flatten_cons,
          decode_word model full roomy]
  have whole := pre_tokens_flatten (splitNext t.pre) (characters text).length (characters text)
    (Nat.le_refl _)
  simp only [rawIds, model, bpeEncodeText]
  apply (words _ 0).trans
  rw [whole, characters_flatten]

end GridcoreRunner.Tok
