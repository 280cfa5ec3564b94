import GridcoreRunner.Tokenizer.ByteLevel

/-!
# Which texts come back

The condition for each model, and a vocabulary of the byte pieces and the marker.
-/

namespace GridcoreRunner.Tok

set_option autoImplicit false

/-- Every marker is whole in what the encoder finds, and the fallback reads no
character past its word. -/
def Faithful (t : Tokenizer) (force : Option Bool) (text : Bytes) : Prop :=
  match t.model with
  | .bpe => True
  | .spm => foundMarks (inVocab t) (spmPieces t force (mark text)) = text.count space
  | .bpeSpm =>
      (∀ p ∈ runPieces t force (mark text), ¬RunsPast t p) ∧
        foundMarks (inVocab t) ((runPieces t force (mark text)).flatMap (unitsOf t [])) =
          text.count space

/-- A text comes back if and only if its markers were found and no character ran past
its word. -/
theorem lossless_iff (t : Tokenizer) (force : Option Bool) (cap : Nat) (text : Bytes)
    (full : ByteComplete t) (roomy : Roomy t cap) (legal : Legal t text) :
    Lossless t force cap text ↔ Faithful t force text := by
  rw [ByteComplete] at full
  rw [Faithful]
  rcases model : t.model
  · -- SentencePiece
    have sentence : ¬t.model = .bpe := by
      rw [model]
      decide
    rw [if_neg sentence] at full
    rcases legal with bpe | ⟨unmarked, spelled⟩
    · exact absurd bpe sentence
    · exact spm_lossless_iff force model full roomy unmarked spelled
  · -- byte-level BPE
    rw [if_pos model] at full
    exact iff_of_true (bpe_lossless force text model full roomy) trivial
  · -- SentencePiece-style BPE
    have sentence : ¬t.model = .bpe := by
      rw [model]
      decide
    rw [if_neg sentence] at full
    rcases legal with bpe | ⟨unmarked, spelled⟩
    · exact absurd bpe sentence
    · exact bpe_spm_lossless_iff force model full roomy unmarked spelled

/-- The byte pieces and the marker. -/
def byteVocab : Tokenizer where
  model := .spm
  pre := .gpt2
  tokens := (List.range 256).map (fun b => byteName (UInt8.ofNat b)) ++ [marker]
  scores := none
  ttype := List.replicate 256 .byte ++ [.normal]
  unkId := none
  addSpacePrefix := true
  merges := []

theorem byte_vocab_at {id : Nat} {piece : Bytes} (at_ : byteVocab.tokens[id]? = some piece) :
    (∃ b, piece = byteName b ∧ typeOf byteVocab id = .byte) ∨
      (piece = marker ∧ typeOf byteVocab id = .normal) := by
  have names : ((List.range 256).map fun b => byteName (UInt8.ofNat b)).length = 256 := by simp
  by_cases below : id < 256
  · left
    rw [byteVocab, List.getElem?_append_left (by rwa [names]), List.getElem?_map,
      List.getElem?_range below, Option.map_some, Option.some.injEq] at at_
    refine ⟨UInt8.ofNat id, at_.symm, ?_⟩
    rw [typeOf, byteVocab, List.getD_eq_getElem?_getD,
      List.getElem?_append_left (by rwa [List.length_replicate]), List.getElem?_replicate,
      if_pos below]
    rfl
  · right
    rw [byteVocab, List.getElem?_append_right (by rw [names]; omega), names] at at_
    have last : id = 256 := by
      have fits := (List.getElem?_eq_some_iff.mp at_).1
      rw [List.length_singleton] at fits
      omega
    subst last
    refine ⟨?_, rfl⟩
    simpa using at_.symm

theorem byte_name_not_marker (b : UInt8) : byteName b ≠ marker := by
  intro same
  have lengths := congrArg List.length same
  cases lengths

theorem byte_vocab_complete : ByteComplete byteVocab := by
  have sentence : ¬byteVocab.model = .bpe := by decide
  rw [ByteComplete, if_neg sentence]
  constructor
  · intro b
    have inside : byteName b ∈ byteVocab.tokens := by
      rw [byteVocab, List.mem_append, List.mem_map]
      left
      refine ⟨b.toNat, List.mem_range.mpr b.toNat_lt, ?_⟩
      rw [UInt8.ofNat_toNat]
    rcases found : hmapGet byteVocab.tokens (byteName b) with _ | id
    · rw [hmapGet, List.findIdx?_eq_none_iff] at found
      have missing := found _ inside
      simp at missing
    · exact ⟨id, rfl⟩
  · intro b id at_
    rcases byte_vocab_at at_ with ⟨_, _, type_⟩ | ⟨same, _⟩
    · exact type_
    · exact absurd same (byte_name_not_marker b)
  · intro id piece at_ unnamed
    rcases byte_vocab_at at_ with ⟨b, same, _⟩ | ⟨_, type_⟩
    · exact absurd same (unnamed b)
    · exact type_

theorem byte_vocab_roomy : Roomy byteVocab 16 := by
  intro piece inside
  rcases List.getElem?_of_mem inside with ⟨id, at_⟩
  have room : (if byteVocab.model = .bpe then 0 else 3) = 3 := rfl
  rw [room]
  rcases byte_vocab_at at_ with ⟨b, same, _⟩ | ⟨same, _⟩
  · have six : (byteName b).length = 6 := rfl
    rw [same, six]
    decide
  · rw [same]
    decide

/-- A text shorter than a byte piece spells none. -/
theorem short_legal {t : Tokenizer} {text : Bytes} (short : text.length < 6)
    (unmarked : ¬marker <:+: text) : Legal t text := by
  right
  refine ⟨unmarked, ?_⟩
  intro b inside
  have six : (byteName b).length = 6 := rfl
  have le := inside.length_le
  omega

/-- A truncated lead byte in front of a space takes two bytes of its marker along. -/
theorem truncated_lead_swallows_marker :
    ByteComplete byteVocab ∧ Roomy byteVocab 16 ∧ Legal byteVocab [0xE2, 0x20] ∧
      ¬Lossless byteVocab none 16 [0xE2, 0x20] := by
  refine ⟨byte_vocab_complete, byte_vocab_roomy, short_legal (by decide) (by decide), ?_⟩
  intro lossless
  have here := lossless (fun _ => [0, 0, 0, 0]) (fun _ => Nat.le_refl 4) 8 (by decide +kernel)
  have read : decodeAll byteVocab 16
      (tokEncodeRaw byteVocab none (fun _ => [0, 0, 0, 0]) [0xE2, 0x20] 8) =
        [0xE2, 0xE2, 0x96, 0x81] := by
    decide +kernel
  rw [read] at here
  cases here

theorem letters_lossless : Lossless byteVocab none 16 [0x61, 0x20, 0x62] := by
  apply (lossless_iff byteVocab none 16 [0x61, 0x20, 0x62] byte_vocab_complete byte_vocab_roomy
    (short_legal (by decide) (by decide))).mpr
  change foundMarks (inVocab byteVocab) (spmPieces byteVocab none (mark [0x61, 0x20, 0x62])) = 1
  decide +kernel

end GridcoreRunner.Tok
