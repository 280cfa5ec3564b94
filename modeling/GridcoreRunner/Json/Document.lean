import GridcoreRunner.Json.Parser
import GridcoreRunner.Utf8

/-!
# JSON documents as they are spelled

The concrete syntax tree of a JSON text: every byte of the text is in it, so that
`text` gives the spelling back, and a tree cannot be built that does not follow
the grammar. `fine` is what the grammar leaves open and `json_parse` also asks
for: well-formed UTF-8, numbers in range, distinct member names, nesting that
fits.
-/

namespace GridcoreRunner.Json

set_option autoImplicit false

/-- Insignificant whitespace. -/
abbrev Blank := { w : Bytes // ∀ c ∈ w, isWs c = true }

def Blank.none : Blank := ⟨[], by simp⟩

def Blank.snoc (w : Blank) (c : UInt8) (ws : isWs c = true) : Blank :=
  ⟨w.val ++ [c], by
    intro b member
    rcases List.mem_append.mp member with old | new
    · exact w.property b old
    · rw [List.mem_singleton.mp new]
      exact ws⟩

/-- Four hex digits and the number they spell. -/
structure Quad where
  a : UInt8
  b : UInt8
  c : UInt8
  d : UInt8
  cp : Nat
  reads : hex4 a b c d = some cp

def Quad.text (quad : Quad) : Bytes := [quad.a, quad.b, quad.c, quad.d]

/-- One unit of a string: a byte as it stands, or an escape. -/
inductive Piece
  | raw (c : UInt8) (plain : 0x20 ≤ c ∧ c ≠ quote ∧ c ≠ backslash)
  | short (e b : UInt8) (known : unescape e = some b)
  | code (quad : Quad) (single : quad.cp ≠ 0 ∧ isHigh quad.cp = false ∧ isLow quad.cp = false)
  | pair (high low : Quad) (halves : isHigh high.cp = true ∧ isLow low.cp = true)

def Piece.text : Piece → Bytes
  | .raw c _ => [c]
  | .short e _ _ => [backslash, e]
  | .code quad _ => backslash :: letterU :: quad.text
  | .pair high low _ => backslash :: letterU :: high.text ++ backslash :: letterU :: low.text

def Piece.decode : Piece → Bytes
  | .raw c _ => [c]
  | .short _ b _ => [b]
  | .code quad _ => u8Emit quad.cp
  | .pair high low _ => u8Emit (joinPair high.cp low.cp)

/-- What stands between the quotes of a string. -/
abbrev Chars := List Piece

def Chars.text (chars : Chars) : Bytes := chars.flatMap Piece.text
def Chars.decode (chars : Chars) : Bytes := chars.flatMap Piece.decode

@[simp] theorem chars_text_nil : Chars.text [] = [] := rfl

@[simp] theorem chars_text_cons (piece : Piece) (chars : Chars) :
    Chars.text (piece :: chars) = piece.text ++ Chars.text chars := rfl

@[simp] theorem chars_text_append (front back : Chars) :
    Chars.text (front ++ back) = Chars.text front ++ Chars.text back := List.flatMap_append

@[simp] theorem chars_decode_nil : Chars.decode [] = [] := rfl

@[simp] theorem chars_decode_cons (piece : Piece) (chars : Chars) :
    Chars.decode (piece :: chars) = piece.decode ++ Chars.decode chars := rfl

@[simp] theorem chars_decode_append (front back : Chars) :
    Chars.decode (front ++ back) = Chars.decode front ++ Chars.decode back := List.flatMap_append

def Digits (ds : Bytes) : Prop := ds ≠ [] ∧ ∀ c ∈ ds, isDigit c = true

/-- The digits in front of the point: a zero, or digits that begin with none. -/
def Whole (ds : Bytes) : Prop := ds = [zero] ∨ Digits ds ∧ ds.head? ≠ some zero

def Fraction (text : Bytes) : Prop := text = [] ∨ ∃ ds, Digits ds ∧ text = dot :: ds

def Marker (e : UInt8) : Prop := e = letterE ∨ e = capitalE

def PowerSign (sign : Bytes) : Prop := sign = [] ∨ sign = [plus] ∨ sign = [minus]

def Exponent (text : Bytes) : Prop :=
  text = [] ∨ ∃ e sign ds, Marker e ∧ PowerSign sign ∧ Digits ds ∧ text = e :: (sign ++ ds)

structure Numeral where
  sign : Bytes
  whole : Bytes
  fraction : Bytes
  exponent : Bytes
  signed : sign = [] ∨ sign = [minus]
  wholly : Whole whole
  fractional : Fraction fraction
  exponential : Exponent exponent

def Numeral.text (numeral : Numeral) : Bytes :=
  numeral.sign ++ (numeral.whole ++ (numeral.fraction ++ numeral.exponent))

inductive Literal
  | true | false | null
deriving DecidableEq, Repr

def Literal.text : Literal → Bytes
  | .true => trueText
  | .false => falseText
  | .null => nullText

def Literal.jv : Literal → Jv
  | .true => .bool Bool.true
  | .false => .bool Bool.false
  | .null => .null

inductive Scalar
  | literal (name : Literal)
  | number (numeral : Numeral)
  | string (chars : Chars)

def Scalar.text : Scalar → Bytes
  | .literal name => name.text
  | .number numeral => numeral.text
  | .string chars => quote :: chars.text ++ [quote]

def Scalar.jv : Scalar → Jv
  | .literal name => name.jv
  | .number numeral => .num (strtod numeral.text).1
  | .string chars => .str chars.decode

/-- A member's name with the blanks around it. -/
structure Name where
  before : Blank
  chars : Chars
  after : Blank

/-- What stands in front of an entry's value. -/
inductive Label : Lid → Type
  | item (lead : Blank) : Label .bracket
  | member (name : Name) (lead : Blank) : Label .brace

def Name.text (name : Name) : Bytes :=
  name.before.val ++ (quote :: name.chars.text ++ quote :: name.after.val)

def Label.text : {lid : Lid} → Label lid → Bytes
  | _, .item lead => lead.val
  | _, .member name lead => name.text ++ colon :: lead.val

def Label.keys : {lid : Lid} → Label lid → List Bytes
  | _, .item _ => []
  | _, .member name _ => [name.chars.decode]

mutual

/-- A value without the blanks around it. `early` holds the entries a comma
follows. -/
inductive Doc
  | leaf (scalar : Scalar)
  | empty (lid : Lid) (blank : Blank)
  | full (lid : Lid) (early : Body lid) (label : Label lid) (last : Doc) (trail : Blank)

inductive Body : Lid → Type
  | none (lid : Lid) : Body lid
  | snoc {lid : Lid} (front : Body lid) (label : Label lid) (doc : Doc) (trail : Blank) : Body lid

end

mutual

def Doc.text : Doc → Bytes
  | .leaf scalar => scalar.text
  | .empty lid blank => lid.opener :: blank.val ++ [lid.closer]
  | .full lid early label last trail =>
      lid.opener :: early.text ++ (label.text ++ (last.text ++ (trail.val ++ [lid.closer])))

def Body.text : {lid : Lid} → Body lid → Bytes
  | _, .none _ => []
  | _, .snoc front label doc trail =>
      front.text ++ (label.text ++ (doc.text ++ (trail.val ++ [comma])))

end

def Body.keys : {lid : Lid} → Body lid → List Bytes
  | _, .none _ => []
  | _, .snoc front label _ _ => front.keys ++ label.keys

def Body.size : {lid : Lid} → Body lid → Nat
  | _, .none _ => 0
  | _, .snoc front _ _ _ => front.size + 1

mutual

/-- The value the document stands for. -/
def Doc.jv : Doc → Jv
  | .leaf scalar => scalar.jv
  | .empty lid _ => lid.jv [] []
  | .full lid early label last _ => lid.jv (early.keys ++ label.keys) (early.items ++ [last.jv])

def Body.items : {lid : Lid} → Body lid → List Jv
  | _, .none _ => []
  | _, .snoc front _ doc _ => front.items ++ [doc.jv]

end

/-- The bytes between the quotes are well-formed UTF-8. -/
def Chars.fine (chars : Chars) : Bool := Utf8.wellFormed chars.text

def Scalar.fine : Scalar → Bool
  | .literal _ => true
  | .number numeral => inRange numeral.text
  | .string chars => chars.fine

/-- The name is well-formed UTF-8 and not one of the names before it. -/
def Label.fine : {lid : Lid} → List Bytes → Label lid → Bool
  | _, _, .item _ => true
  | _, seen, .member name _ => name.chars.fine && decide (name.chars.decode ∉ seen)

mutual

/-- `json_parse` can read the document with `room` levels left. -/
def Doc.fine : Nat → Doc → Bool
  | room, .leaf scalar => decide (0 < room) && scalar.fine
  | room, .empty _ _ => decide (0 < room)
  | room, .full _ early label last _ =>
      early.fine (room - 1) && label.fine early.keys && last.fine (room - 1)

def Body.fine : {lid : Lid} → Nat → Body lid → Bool
  | _, _, .none _ => true
  | _, room, .snoc front label doc _ =>
      front.fine room && label.fine front.keys && doc.fine room

end

end GridcoreRunner.Json
