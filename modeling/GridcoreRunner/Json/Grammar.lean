import GridcoreRunner.Json.CursorReads

/-!
# The texts that are accepted

The grammar of JSON texts with the conditions this program adds, each where it belongs: on
every string, on every number, on the names of every object, and on how deep values stand.
`json_parse` accepts these texts and no others, and reads nothing past their end.
-/

namespace GridcoreRunner.Json

set_option autoImplicit false

mutual

/-- How many values stand inside each other, the document counted. -/
def Doc.depth : Doc → Nat
  | .leaf _ => 1
  | .empty _ _ => 1
  | .full _ early _ last _ => max early.depth last.depth + 1

def Body.depth : {lid : Lid} → Body lid → Nat
  | _, .none _ => 0
  | _, .snoc front _ doc _ => max front.depth doc.depth

end

/-- Strings are well-formed UTF-8, and numbers convert to doubles in range. -/
def Scalar.Valid : Scalar → Prop
  | .literal _ => True
  | .number numeral => inRange numeral.text = true
  | .string chars => Utf8.wellFormed chars.text = true

def Label.Valid : {lid : Lid} → Label lid → Prop
  | _, .item _ => True
  | _, .member name _ => Utf8.wellFormed name.chars.text = true

mutual

/-- All strings and numbers of the document are valid, and no object has two names that
decode to the same. -/
def Doc.Valid : Doc → Prop
  | .leaf scalar => scalar.Valid
  | .empty _ _ => True
  | .full _ early label last _ =>
      early.Valid ∧ label.Valid ∧ last.Valid ∧ (early.keys ++ label.keys).Nodup

def Body.Valid : {lid : Lid} → Body lid → Prop
  | _, .none _ => True
  | _, .snoc front label doc _ => front.Valid ∧ label.Valid ∧ doc.Valid

end

/-- The text spells a valid document, with blanks around it, that stands for this value. -/
def Denotes (s : Bytes) (v : Jv) : Prop :=
  ∃ (lead trail : Blank) (doc : Doc), s = lead.val ++ (doc.text ++ trail.val) ∧ doc.Valid ∧
    doc.depth ≤ maxDepth ∧ v = doc.jv

theorem scalar_fine_iff (scalar : Scalar) : scalar.fine = true ↔ scalar.Valid := by
  cases scalar <;> simp [Scalar.fine, Scalar.Valid, Chars.fine]

/-- A name is fine when it is valid and new. -/
theorem label_fine_iff {lid : Lid} (label : Label lid) {seen : List Bytes} (nodup : seen.Nodup) :
    label.fine seen = true ↔ label.Valid ∧ (seen ++ label.keys).Nodup := by
  cases label with
  | item lead => simp [Label.fine, Label.Valid, Label.keys, nodup]
  | member name lead =>
      rw [List.nodup_append_comm]
      simp only [Label.fine, Label.Valid, Label.keys, Chars.fine, Bool.and_eq_true,
        decide_eq_true_eq, List.singleton_append, List.nodup_cons, nodup, and_true]

theorem depth_pos (doc : Doc) : 1 ≤ doc.depth := by
  cases doc <;> simp [Doc.depth]

mutual

/-- The parser's conditions, checked from the outside in, are the grammar's. -/
theorem doc_fine_iff : ∀ (doc : Doc) (room : Nat),
    doc.fine room = true ↔ doc.Valid ∧ doc.depth ≤ room
  | .leaf scalar, room => by
      simp [Doc.fine, Doc.Valid, Doc.depth, scalar_fine_iff, and_comm, Nat.succ_le_iff]
  | .empty _ _, room => by
      simp [Doc.fine, Doc.Valid, Doc.depth, Nat.succ_le_iff]
  | .full lid early label last trail, room => by
      have front := body_fine_iff early (room - 1)
      have back := doc_fine_iff last (room - 1)
      have deep := depth_pos last
      simp only [Doc.fine, Doc.Valid, Doc.depth, Bool.and_eq_true, front, back]
      constructor
      · rintro ⟨⟨⟨valid, depth, nodup⟩, labelled⟩, lastValid, lastDepth⟩
        have named := (label_fine_iff label nodup).mp labelled
        exact ⟨⟨valid, named.1, lastValid, named.2⟩, by omega⟩
      · rintro ⟨⟨valid, labelValid, lastValid, nodup⟩, depth⟩
        have before := (List.nodup_append.mp nodup).1
        exact ⟨⟨⟨valid, by omega, before⟩, (label_fine_iff label before).mpr ⟨labelValid, nodup⟩⟩,
          lastValid, by omega⟩

/-- The entries are fine when they are valid, not too deep, and their names differ. -/
theorem body_fine_iff : ∀ {lid : Lid} (body : Body lid) (room : Nat),
    body.fine room = true ↔ body.Valid ∧ body.depth ≤ room ∧ body.keys.Nodup
  | _, .none _, room => by simp [Body.fine, Body.Valid, Body.depth, Body.keys]
  | _, .snoc front label doc trail, room => by
      have early := body_fine_iff front room
      have back := doc_fine_iff doc room
      simp only [Body.fine, Body.Valid, Body.depth, Body.keys, Bool.and_eq_true, early, back,
        Nat.max_le]
      constructor
      · rintro ⟨⟨⟨valid, depth, nodup⟩, labelled⟩, docValid, docDepth⟩
        have named := (label_fine_iff label nodup).mp labelled
        exact ⟨⟨valid, named.1, docValid⟩, ⟨depth, docDepth⟩, named.2⟩
      · rintro ⟨⟨valid, labelValid, docValid⟩, ⟨depth, docDepth⟩, nodup⟩
        have before := (List.nodup_append.mp nodup).1
        exact ⟨⟨⟨valid, depth, before⟩, (label_fine_iff label before).mpr ⟨labelValid, nodup⟩⟩,
          docValid, docDepth⟩

end

/-- The parser over the rest of the text accepts what the grammar spells. -/
theorem json_parse_denotes (s : Bytes) (v : Jv) : jsonParse s = some v ↔ Denotes s v := by
  rw [json_parse_iff]
  constructor
  · rintro ⟨lead, trail, doc, spelled, fine, value⟩
    obtain ⟨valid, depth⟩ := (doc_fine_iff doc maxDepth).mp fine
    exact ⟨lead, trail, doc, spelled, valid, depth, value⟩
  · rintro ⟨lead, trail, doc, spelled, valid, depth, value⟩
    exact ⟨lead, trail, doc, spelled, (doc_fine_iff doc maxDepth).mpr ⟨valid, depth⟩, value⟩

/-- `json_parse` returns a value exactly for the texts of the grammar, and the one they
denote; on every other text it returns nothing. It ends on every text, and no byte at or past
the end of the text is read on the way. -/
theorem json_parse_grammar (s : Bytes) :
    (∀ v, Cursor.jsonParse s = .done v ↔ Denotes s v) ∧
      (Cursor.jsonParse s = .refused ↔ ¬∃ v, Denotes s v) ∧ Cursor.jsonParse s ≠ .wrong := by
  have reads := Cursor.json_parse_reads s
  rcases parsed : jsonParse s with _ | w
  · rw [parsed] at reads
    have nothing : ∀ v, ¬Denotes s v := by
      intro v denotes
      rw [(json_parse_denotes s v).mpr denotes] at parsed
      cases parsed
    rw [reads.refused_of_none]
    refine ⟨?_, ?_, ?_⟩
    · intro v
      constructor
      · intro done
        cases done
      · intro denotes
        exact absurd denotes (nothing v)
    · constructor
      · rintro _ ⟨v, denotes⟩
        exact nothing v denotes
      · intro _
        rfl
    · intro wrong
      cases wrong
  · rw [parsed] at reads
    obtain ⟨v, done, same⟩ := reads.done_of_some
    have denotes := (json_parse_denotes s w).mp parsed
    rw [done, same]
    refine ⟨?_, ?_, ?_⟩
    · intro v
      rw [← json_parse_denotes, parsed, Outcome.done.injEq, Option.some.injEq]
    · constructor
      · intro refused
        cases refused
      · intro nothing
        exact absurd ⟨w, denotes⟩ nothing
    · intro wrong
      cases wrong

end GridcoreRunner.Json
