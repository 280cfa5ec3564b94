import GridcoreRunner.Tokenizer.Merge
import GridcoreRunner.Tokenizer.PreTokens

/-!
# Encoding and decoding

`tok_encode_raw` and `tok_decode`. A character is read as many bytes long as its
lead byte claims, also where they run past the piece it is in, so a word comes with
the memory behind it.
-/

namespace GridcoreRunner.Tok

set_option autoImplicit false

/-- `"\xE2\x96\x81"`, U+2581. -/
def marker : Bytes := [0xE2, 0x96, 0x81]

def space : UInt8 := 0x20
def lineFeed : UInt8 := 0x0A

/-- A digit of `%02X`. -/
def hexUpper (d : Nat) : UInt8 := if d < 10 then UInt8.ofNat (0x30 + d) else UInt8.ofNat (0x41 + (d - 10))

/-- `"<0x%02X>"`. -/
def byteName (b : UInt8) : Bytes :=
  [0x3C, 0x30, 0x78, hexUpper (b.toNat / 16), hexUpper (b.toNat % 16), 0x3E]

/-! ## Looking pieces up -/

/-- The byte fallback of one byte. -/
def byteId (t : Tokenizer) (b : UInt8) : Option Nat := (hmapGet t.tokens (byteName b)).or t.unkId

/-- A piece's id, or those of its bytes. -/
def lookUp (t : Tokenizer) (piece : Bytes) : List Nat :=
  match hmapGet t.tokens piece with
  | some id => [id]
  | none => piece.filterMap (byteId t)

/-- The output loop of `spm_encode`. -/
def spmEncode (t : Tokenizer) (force : Option Bool) (text : Bytes) : List Nat :=
  (finalPieces text (spmMerged t force text)).flatMap fun span => lookUp t (slice text span)

/-- The characters of a piece of `left` bytes at the front of `memory`. -/
def charsAt : Nat → Bytes → Nat → List Bytes
  | 0, _, _ => []
  | _ + 1, [], _ => []
  | _ + 1, _, 0 => []
  | rounds + 1, c :: memory, left + 1 =>
      (c :: memory).take (u8Len c) ::
        charsAt rounds ((c :: memory).drop (u8Len c)) (left + 1 - u8Len c)

/-- One piece of `bpe_word`'s output loop. -/
def bpeEmit (t : Tokenizer) (memory : Bytes) (span : Span) : List Nat :=
  match hmapGet t.tokens (slice memory span) with
  | some id => [id]
  | none => (charsAt span.2 (memory.drop span.1) span.2).flatMap (lookUp t)

/-- `bpe_word`, with the memory behind the word. -/
def bpeWord (t : Tokenizer) (force : Option Bool) (w behind : Bytes) : List Nat :=
  (finalPieces w (bpeMerged t force w)).flatMap (bpeEmit t (w ++ behind))

/-! ## Texts -/

/-- Every space becomes a marker. -/
def mark (text : Bytes) : Bytes := text.flatMap fun c => if c = space then marker else [c]

def spmEncodeText (t : Tokenizer) (force : Option Bool) (text : Bytes) (firstSegment : Bool) :
    List Nat :=
  let first := if t.addSpacePrefix && firstSegment && !text.isEmpty then marker else []
  spmEncode t force (first ++ mark text)

/-- `b2u`: printable bytes stand for themselves, the others for what follows 255. -/
def kept (b : Nat) : Bool :=
  decide (0x21 ≤ b ∧ b ≤ 0x7E) || decide (0xA1 ≤ b ∧ b ≤ 0xAC) || decide (0xAE ≤ b ∧ b ≤ 0xFF)

def b2u (b : UInt8) : Nat :=
  if kept b.toNat then b.toNat else 256 + (List.range b.toNat).countP (fun x => !kept x)

/-- `u2b`, `none` for -1. -/
def u2b (cp : Nat) : Option UInt8 :=
  ((List.range 256).find? fun b => b2u (UInt8.ofNat b) == cp).map UInt8.ofNat

/-- The characters of a text and their code points, cut like symbols. -/
def characters (text : Bytes) : List Bytes := (cut text).map (slice text)

/-- The pre-tokens of a text, each of at least one character. -/
def preTokens (next : List Nat → Nat) : Nat → List Bytes → List Bytes
  | 0, _ => []
  | _ + 1, [] => []
  | rounds + 1, c :: s =>
      let n := next ((c :: s).map u8Decode)
      let n := if n = 0 then 1 else n
      ((c :: s).take n).flatten :: preTokens next rounds ((c :: s).drop n)

/-- The bytes of a pre-token through `b2u`. -/
def alphabet (bytes : Bytes) : Bytes := bytes.flatMap fun b => u8Encode (b2u b)

/-- `bpe_encode_text`; `behind` is what the word's buffer holds behind each word. -/
def bpeEncodeText (t : Tokenizer) (force : Option Bool) (behind : Nat → Bytes) (text : Bytes) :
    List Nat :=
  let words := preTokens (splitNext t.pre) (characters text).length (characters text)
  words.zipIdx.flatMap fun (word, k) => bpeWord t force (alphabet word) (behind k)

/-- The runs of newlines and of anything else. -/
def newlineRuns : Nat → Bytes → List Bytes
  | 0, _ => []
  | _ + 1, [] => []
  | rounds + 1, c :: s =>
      let same := fun x : UInt8 => decide (x = lineFeed) == decide (c = lineFeed)
      (c :: s).takeWhile same :: newlineRuns rounds ((c :: s).dropWhile same)

/-- The words of a buffer one after the other; `behind` follows the buffer. -/
def wordsOf (t : Tokenizer) (force : Option Bool) (behind : Bytes) : List Bytes → List Nat
  | [] => []
  | run :: runs => bpeWord t force run (runs.flatten ++ behind) ++ wordsOf t force behind runs

/-- `bpe_spm_encode_text`; `behind` is what its buffer holds behind the text. -/
def bpeSpmEncodeText (t : Tokenizer) (force : Option Bool) (behind : Bytes) (text : Bytes) :
    List Nat :=
  wordsOf t force behind (newlineRuns (mark text).length (mark text))

/-- The ids of a text. -/
def rawIds (t : Tokenizer) (force : Option Bool) (behind : Nat → Bytes) (text : Bytes) : List Nat :=
  match t.model with
  | .spm => spmEncodeText t force text false
  | .bpeSpm => bpeSpmEncodeText t force (behind 0) text
  | .bpe => bpeEncodeText t force behind text

/-- `tok_encode_raw`, into an array of `cap` entries. -/
def tokEncodeRaw (t : Tokenizer) (force : Option Bool) (behind : Nat → Bytes) (text : Bytes)
    (cap : Nat) : List Nat :=
  (rawIds t force behind text).take cap

/-! ## Decoding -/

/-- `strtol(s, NULL, 16)`. -/
def hexRun : Nat → Bytes → Nat
  | acc, [] => acc
  | acc, c :: s =>
      match Json.hexDigit c with
      | some d => hexRun (acc * 16 + d) s
      | none => acc

def hexPrefix : Bytes → Bytes
  | z :: x :: d :: s =>
      if z = 0x30 ∧ (x = 0x78 ∨ x = 0x58) ∧ (Json.hexDigit d).isSome then d :: s else z :: x :: d :: s
  | s => s

def strtol16 (s : Bytes) : Int :=
  let s := s.dropWhile fun c => c == 0x20 || (0x09 ≤ c && c ≤ 0x0D)
  match s with
  | c :: rest =>
      if c = 0x2D then -(hexRun 0 (hexPrefix rest))
      else if c = 0x2B then hexRun 0 (hexPrefix rest)
      else hexRun 0 (hexPrefix s)
  | [] => 0

/-- The text of a SentencePiece piece, in at most `room` bytes. -/
def unmark : Nat → Bytes → Bytes
  | 0, _ => []
  | _ + 1, [] => []
  | room + 1, c :: s =>
      if (c :: s).take 3 = marker then space :: unmark room ((c :: s).drop 3)
      else c :: unmark room s

/-- The bytes of a byte-level piece, in at most `room` bytes. -/
def decodeChars : Nat → Nat → Bytes → Bytes
  | 0, _, _ => []
  | _ + 1, _, [] => []
  | rounds + 1, room, c :: s =>
      if room = 0 then []
      else
        let l := if s.length + 1 < u8Len c then 1 else u8Len c
        let cp := u8Decode ((c :: s).take l)
        let out := match if cp < 512 then u2b cp else none with
          | some b => [b]
          | none => ((c :: s).take l).take room
        out ++ decodeChars rounds (room - out.length) ((c :: s).drop l)

def typeOf (t : Tokenizer) (id : Nat) : TokenType := t.ttype.getD id .normal

def tokDecode (t : Tokenizer) (id cap : Nat) : Bytes :=
  match t.tokens[id]? with
  | none => []
  | some tok =>
      if typeOf t id = .control ∨ typeOf t id = .unused then []
      else if t.model = .bpe then decodeChars tok.length cap tok
      else if typeOf t id = .byte then
        if tok.length = 6 ∧ 1 ≤ cap then [UInt8.ofInt (strtol16 (tok.drop 3))] else []
      else unmark (cap - 3) tok

/-- The decoded pieces in a row. -/
def decodeAll (t : Tokenizer) (cap : Nat) (ids : List Nat) : Bytes :=
  ids.flatMap fun id => tokDecode t id cap

end GridcoreRunner.Tok
