import GridcoreRunner.Json.Document

/-!
# Documents that are not finished

The syntax tree of a prefix of a JSON text: the containers that are open, with the
entries they have so far, and the token the text stops in. `Open.fine` says when
the document the prefix has begun can still be read back once it is closed in
the shortest way: what is complete is fine, the open string does not stop inside
a character, the open name is new, the open numeral is in range, and there is
room for the value that is still missing.
-/

namespace GridcoreRunner.Json

set_option autoImplicit false

/-- The open containers around a value. -/
inductive Path
  | top (lead : Blank)
  | inside (outer : Path) (lid : Lid) (early : Body lid) (label : Label lid)

def Path.text : Path → Bytes
  | .top lead => lead.val
  | .inside outer lid early label => outer.text ++ lid.opener :: (early.text ++ label.text)

/-- The containers, the innermost first. -/
def Path.lids : Path → List Lid
  | .top _ => []
  | .inside outer lid _ _ => lid :: outer.lids

def Path.depth (path : Path) : Nat := path.lids.length

/-- What stands on the path is fine. -/
def Path.fine : Path → Bool
  | .top _ => true
  | .inside outer _ early label =>
      outer.fine && early.fine (maxDepth - (outer.depth + 1)) && label.fine early.keys

/-- The text once a value stands at the end of the path and all containers close. -/
def Path.close : Path → Doc → Blank × Doc
  | .top lead, doc => (lead, doc)
  | .inside outer lid early label, doc => outer.close (.full lid early label doc Blank.none)

/-- The number that hex digits spell. -/
def hexRun (ds : Bytes) : Option Nat :=
  ds.foldlM (fun value c => (hexDigit c).map (value * 16 + ·)) 0

/-- An escape that is not finished. The digits of a first half never spell the
beginning of a low half; those of a second half never anything else. -/
inductive OpenEscape
  | none
  | slash
  | code (ds : Bytes) (value : Nat) (reads : hexRun ds = some value) (short : ds.length < 4)
      (viable : isLow (value * 16 ^ (4 - ds.length)) = false)
  | high (quad : Quad) (half : isHigh quad.cp = true)
  | highSlash (quad : Quad) (half : isHigh quad.cp = true)
  | low (quad : Quad) (half : isHigh quad.cp = true) (ds : Bytes) (value : Nat)
      (reads : hexRun ds = some value) (short : ds.length < 4)
      (first : ds.length = 1 → value = 0xD)
      (viable : 2 ≤ ds.length → isLow (value * 16 ^ (4 - ds.length)) = true)

def OpenEscape.text : OpenEscape → Bytes
  | .none => []
  | .slash => [backslash]
  | .code ds .. => backslash :: letterU :: ds
  | .high quad _ => backslash :: letterU :: quad.text
  | .highSlash quad _ => backslash :: letterU :: quad.text ++ [backslash]
  | .low quad _ ds .. => backslash :: letterU :: quad.text ++ backslash :: letterU :: ds

/-- What the escape stands for with the least digits that finish it; a dangling
backslash becomes a newline. -/
def OpenEscape.decode : OpenEscape → Bytes
  | .none => []
  | .slash => [0x0a]
  | .code ds value .. =>
      let cp := value * 16 ^ (4 - ds.length)
      if cp = 0 then u8Emit 1
      else if isHigh cp then u8Emit (joinPair cp 0xDC00)
      else u8Emit cp
  | .high quad _ => u8Emit (joinPair quad.cp 0xDC00)
  | .highSlash quad _ => u8Emit (joinPair quad.cp 0xDC00)
  | .low quad _ ds value .. =>
      u8Emit (joinPair quad.cp
        (if ds.length ≤ 1 then 0xDC00 else value * 16 ^ (4 - ds.length)))

/-- A string that has not seen its closing quote. -/
structure OpenChars where
  chars : Chars
  escape : OpenEscape

def OpenChars.text (s : OpenChars) : Bytes := s.chars.text ++ s.escape.text
def OpenChars.decode (s : OpenChars) : Bytes := s.chars.decode ++ s.escape.decode
def OpenChars.fine (s : OpenChars) : Bool := s.chars.fine

/-- A numeral that could go on. -/
inductive OpenNumeral
  | minus
  | whole (n : Numeral) (bare : n.fraction = [] ∧ n.exponent = [])
  | point (n : Numeral) (bare : n.fraction = [] ∧ n.exponent = [])
  | fraction (n : Numeral) (part : n.fraction ≠ [] ∧ n.exponent = [])
  | marker (n : Numeral) (e : UInt8) (open_ : n.exponent = [] ∧ Marker e)
  | signed (n : Numeral) (e s : UInt8) (open_ : n.exponent = [] ∧ Marker e ∧ PowerSign [s])
  | power (n : Numeral) (part : n.exponent ≠ [])

def OpenNumeral.text : OpenNumeral → Bytes
  | .minus => [Json.minus]
  | .whole n _ => n.text
  | .point n _ => n.text ++ [dot]
  | .fraction n _ => n.text
  | .marker n e _ => n.text ++ [e]
  | .signed n e s _ => n.text ++ [e, s]
  | .power n _ => n.text

/-- The zero that makes it a numeral, where one is missing. -/
def OpenNumeral.filler : OpenNumeral → Bytes
  | .minus => [zero]
  | .whole _ _ => []
  | .point _ _ => [zero]
  | .fraction _ _ => []
  | .marker _ _ _ => [zero]
  | .signed _ _ _ _ => [zero]
  | .power _ _ => []

/-- A prefix of a JSON text. -/
inductive Open
  | start
  | value (path : Path)
  | opened (path : Path) (lid : Lid) (blank : Blank)
  | keyExpect (path : Path) (early : Body .brace) (blank : Blank)
  | key (path : Path) (early : Body .brace) (before : Blank) (chars : OpenChars)
  | colon (path : Path) (early : Body .brace) (name : Name)
  | string (path : Path) (chars : OpenChars)
  | number (path : Path) (numeral : OpenNumeral)
  | literal (path : Path) (name : Literal) (count : Nat)
  | after (path : Path) (lid : Lid) (early : Body lid) (label : Label lid) (doc : Doc)
      (trail : Blank)
  | done (lead : Blank) (doc : Doc)

def Open.text : Open → Bytes
  | .start => []
  | .value path => path.text
  | .opened path lid blank => path.text ++ lid.opener :: blank.val
  | .keyExpect path early blank => path.text ++ lbrace :: (early.text ++ blank.val)
  | .key path early before chars =>
      path.text ++ lbrace :: (early.text ++ (before.val ++ quote :: chars.text))
  | .colon path early name => path.text ++ lbrace :: (early.text ++ name.text)
  | .string path chars => path.text ++ quote :: chars.text
  | .number path numeral => path.text ++ numeral.text
  | .literal path name count => path.text ++ name.text.take count
  | .after path lid early label doc trail =>
      path.text ++ lid.opener :: (early.text ++ (label.text ++ (doc.text ++ trail.val)))
  | .done lead doc => lead.val ++ doc.text

/-- The document the prefix has begun can still be read back. -/
def Open.fine : Open → Bool
  | .start => false
  | .value path => path.fine && decide (path.depth < maxDepth)
  | .opened path .brace _ => path.fine && decide (path.depth < maxDepth)
  | .opened path .bracket _ => path.fine && decide (path.depth + 1 < maxDepth)
  | .keyExpect path early _ =>
      path.fine && early.fine (maxDepth - (path.depth + 1)) && decide ([underscore] ∉ early.keys) &&
        decide (path.depth + 1 < maxDepth)
  | .key path early _ chars =>
      path.fine && early.fine (maxDepth - (path.depth + 1)) &&
        (chars.fine && decide (chars.decode ∉ early.keys)) && decide (path.depth + 1 < maxDepth)
  | .colon path early name =>
      path.fine && early.fine (maxDepth - (path.depth + 1)) &&
        (name.chars.fine && decide (name.chars.decode ∉ early.keys)) &&
        decide (path.depth + 1 < maxDepth)
  | .string path chars => path.fine && decide (path.depth < maxDepth) && chars.fine
  | .number path numeral =>
      path.fine && decide (path.depth < maxDepth) && inRange (numeral.text ++ numeral.filler)
  | .literal path _ _ => path.fine && decide (path.depth < maxDepth)
  | .after path _ early label doc _ =>
      path.fine && early.fine (maxDepth - (path.depth + 1)) && label.fine early.keys &&
        doc.fine (maxDepth - (path.depth + 1))
  | .done _ doc => doc.fine maxDepth

/-! ## Closing a path -/

theorem path_close_text (path : Path) (doc : Doc) :
    (path.close doc).1.val ++ (path.close doc).2.text =
      path.text ++ (doc.text ++ path.lids.map Lid.closer) := by
  induction path generalizing doc with
  | top lead => simp [Path.close, Path.text, Path.lids]
  | inside outer lid early label induction =>
      simp [Path.close, Path.text, Path.lids, induction, Doc.text, Blank.none]

theorem path_close_fine (path : Path) (doc : Doc) :
    (path.close doc).2.fine maxDepth = (path.fine && doc.fine (maxDepth - path.depth)) := by
  induction path generalizing doc with
  | top lead => simp [Path.close, Path.fine, Path.depth, Path.lids]
  | inside outer lid early label induction =>
      have level : maxDepth - (outer.depth + 1) = maxDepth - outer.depth - 1 := by omega
      have deeper : (Path.inside outer lid early label).depth = outer.depth + 1 := rfl
      simp only [Path.close, induction, Path.fine, Doc.fine, deeper, level, Bool.and_assoc]

end GridcoreRunner.Json
