import Mathlib.Data.List.TakeWhile
import GridcoreRunner.Json.Dump
import GridcoreRunner.Json.Grammar

/-!
# Text that survives a string

Well-formed text without a NUL is read back from a JSON string as it was. What `sb_esc` and
`jv_dump` write is such text, so that a printed value can stand in a string of another.
-/

namespace GridcoreRunner.Json

set_option autoImplicit false

open GridcoreRunner.Utf8

structure Clean (s : Bytes) : Prop where
  wellFormed : wellFormed s = true
  nulFree : NulFree s

theorem NulFree.absent {s : Bytes} (free : NulFree s) : (0 : UInt8) ∉ s :=
  fun inside => free 0 inside rfl

theorem NulFree.append {front back : Bytes} (early : NulFree front) (late : NulFree back) :
    NulFree (front ++ back) := by
  intro c inside
  rcases List.mem_append.mp inside with here | there
  · exact early c here
  · exact late c there

theorem NulFree.sublist {part whole : Bytes} (free : NulFree whole) (inside : part ⊆ whole) :
    NulFree part := fun c member => free c (inside member)

theorem clean_nil : Clean [] := ⟨rfl, (fun _ never => by cases never)⟩

theorem Clean.append {front back : Bytes} (early : Clean front) (late : Clean back) :
    Clean (front ++ back) := by
  refine ⟨?_, early.nulFree.append late.nulFree⟩
  obtain ⟨chars, same⟩ := (well_formed_chars _).mp early.wellFormed
  obtain ⟨more, same'⟩ := (well_formed_chars _).mp late.wellFormed
  apply (well_formed_chars _).mpr
  exact ⟨chars ++ more, by rw [same, same', List.flatMap_append]⟩

/-- A byte that a text may hold anywhere. -/
def PlainByte (c : UInt8) : Prop := c < 0x80 ∧ c ≠ 0

instance (c : UInt8) : Decidable (PlainByte c) := inferInstanceAs (Decidable (_ ∧ _))

theorem clean_plain {s : Bytes} (plain : ∀ c ∈ s, PlainByte c) : Clean s := by
  refine ⟨?_, fun c inside => (plain c inside).2⟩
  rw [← List.append_nil s, well_formed_ascii_append fun c inside => (plain c inside).1]
  rfl

theorem Clean.cons {c : UInt8} {s : Bytes} (clean : Clean s) (plain : PlainByte c) :
    Clean (c :: s) := by
  have single : Clean [c] := by
    apply clean_plain
    intro d inside
    rwa [List.mem_singleton.mp inside]
  exact single.append clean

theorem Clean.cleaned {s : Bytes} (clean : Clean s) : cleaned s = s := by
  obtain ⟨chars, same⟩ := (well_formed_chars s).mp clean.wellFormed
  rw [same, cleaned_chars]

/-! ## Strings -/

theorem hex_digit_plain {c : UInt8} {d : Nat} (read : hexDigit c = some d) : PlainByte c := by
  refine ⟨hex_digit_ascii read, ?_⟩
  intro same
  rw [same] at read
  cases read

theorem Quad.plain (quad : Quad) : ∀ c ∈ quad.text, PlainByte c := by
  rcases quad.digits with ⟨x, y, z, w, hx, hy, hz, hw, _⟩
  simp only [Quad.text, List.mem_cons, List.not_mem_nil, or_false, forall_eq_or_imp, forall_eq]
  exact ⟨hex_digit_plain hx, hex_digit_plain hy, hex_digit_plain hz, hex_digit_plain hw⟩

theorem piece_nul_free (piece : Piece) : NulFree piece.text := by
  have letter : PlainByte letterU := by decide
  have slash_ : PlainByte backslash := by decide
  cases piece with
  | raw c plain =>
      intro d inside
      rw [List.mem_singleton.mp inside]
      intro same
      rw [same] at plain
      exact absurd plain.1 (by decide)
  | short e b known =>
      intro d inside
      simp only [Piece.text, List.mem_cons, List.not_mem_nil, or_false] at inside
      rcases inside with rfl | rfl
      · exact slash_.2
      · intro same
        rw [same] at known
        cases known
  | code quad single =>
      intro d inside
      simp only [Piece.text, List.mem_cons] at inside
      rcases inside with rfl | rfl | digit
      · exact slash_.2
      · exact letter.2
      · exact (quad.plain d digit).2
  | pair high low halves =>
      intro d inside
      simp only [Piece.text, List.cons_append, List.mem_cons, List.mem_append] at inside
      rcases inside with rfl | rfl | digit | rfl | rfl | digit
      · exact slash_.2
      · exact letter.2
      · exact (high.plain d digit).2
      · exact slash_.2
      · exact letter.2
      · exact (low.plain d digit).2

theorem chars_clean {chars : Chars} (fine : chars.fine = true) : Clean chars.text := by
  refine ⟨fine, ?_⟩
  intro c inside
  obtain ⟨piece, _, here⟩ := List.mem_flatMap.mp inside
  exact piece_nul_free piece c here

theorem escaped_clean {s : Bytes} (free : NulFree s) : Clean (sbEsc s) := by
  obtain ⟨chars, text, _, fine⟩ := escaped_pieces free.absent
  rw [← text]
  exact chars_clean fine

/-- Between quotes the text stands for the decoded bytes. -/
def Pieces (text decoded : Bytes) : Prop :=
  ∃ chars : Chars, chars.text = text ∧ chars.decode = decoded ∧ chars.fine = true

theorem pieces_nil : Pieces [] [] := ⟨[], rfl, rfl, rfl⟩

theorem Pieces.append {text text' decoded decoded' : Bytes} (early : Pieces text decoded)
    (late : Pieces text' decoded') : Pieces (text ++ text') (decoded ++ decoded') := by
  obtain ⟨chars, spelled, decode, fine⟩ := early
  obtain ⟨chars', spelled', decode', fine'⟩ := late
  refine ⟨chars ++ chars', by rw [chars_text_append, spelled, spelled'],
    by rw [chars_decode_append, decode, decode'], ?_⟩
  rw [Chars.fine, chars_text_append]
  exact ((chars_clean fine).append (chars_clean fine')).wellFormed

theorem Pieces.clean {text decoded : Bytes} (pieces : Pieces text decoded) : Clean decoded := by
  obtain ⟨chars, _, rfl, fine⟩ := pieces
  exact ⟨(well_formed_chars _).mpr (decode_chars fine), decode_nul_free chars⟩

/-- A text between quotes stands for one text. -/
theorem Pieces.unique {text decoded decoded' : Bytes} (pieces : Pieces text decoded)
    (pieces' : Pieces text decoded') : decoded' = decoded := by
  obtain ⟨chars, rfl, rfl, fine⟩ := pieces
  obtain ⟨chars', same, rfl, fine'⟩ := pieces'
  have read := parse_string_chars chars []
  have read' := parse_string_chars chars' []
  rw [if_pos fine] at read
  rw [if_pos fine', same, read] at read'
  exact (Prod.mk.inj (Option.some.inj read')).1.symm

theorem pieces_escaped {s : Bytes} (free : NulFree s) : Pieces (sbEsc s) (cleaned s) :=
  escaped_pieces free.absent

/-- What `sb_esc` writes between the quotes is read back as the text. -/
theorem Clean.pieces {s : Bytes} (clean : Clean s) : Pieces (sbEsc s) s := by
  have escaped := pieces_escaped clean.nulFree
  rwa [clean.cleaned] at escaped

/-- A byte that stands in a string as it is. -/
def StandsRaw (c : UInt8) : Prop := 0x20 ≤ c ∧ c ≠ quote ∧ c ≠ backslash

instance (c : UInt8) : Decidable (StandsRaw c) := inferInstanceAs (Decidable (_ ∧ _ ∧ _))

/-- Clean text without a byte that needs an escape stands in a string as it is. -/
theorem Clean.raw_pieces {s : Bytes} (clean : Clean s) (raw : ∀ c ∈ s, StandsRaw c) :
    Pieces s s := by
  have pieces : ∀ t : Bytes, (∀ c ∈ t, StandsRaw c) →
      ∃ chars : Chars, chars.text = t ∧ chars.decode = t := by
    intro t
    induction t with
    | nil =>
        intro _
        exact ⟨[], rfl, rfl⟩
    | cons c t induction =>
        intro all
        obtain ⟨chars, text, decode⟩ := induction fun d inside => all d (List.mem_cons_of_mem c inside)
        refine ⟨.raw c (all c List.mem_cons_self) :: chars, ?_, ?_⟩
        · rw [chars_text_cons, text]
          rfl
        · rw [chars_decode_cons, decode]
          rfl
  obtain ⟨chars, text, decode⟩ := pieces s raw
  refine ⟨chars, text, decode, ?_⟩
  rw [Chars.fine, text]
  exact clean.wellFormed

/-! ## Documents -/

theorem opener_plain (lid : Lid) : PlainByte lid.opener := by
  cases lid <;> decide

theorem closer_plain (lid : Lid) : PlainByte lid.closer := by
  cases lid <;> decide

/-- What holds of digits, signs, the point and the exponent's marker holds of a numeral. -/
theorem numeral_bytes (holds : UInt8 → Prop) (numeral : Numeral)
    (digit : ∀ c, isDigit c = true → holds c)
    (other : ∀ c ∈ [minus, plus, dot, letterE, capitalE], holds c) :
    ∀ c ∈ numeral.text, holds c := by
  have minus_ := other minus (by decide)
  have plus_ := other plus (by decide)
  have dot_ := other dot (by decide)
  have digits : ∀ ds : Bytes, Digits ds → ∀ c ∈ ds, holds c :=
    fun ds all c inside => digit c (all.2 c inside)
  have sign : ∀ c ∈ numeral.sign, holds c := by
    intro c inside
    rcases numeral.signed with same | same <;> rw [same] at inside
    · cases inside
    · rwa [List.mem_singleton.mp inside]
  have whole : ∀ c ∈ numeral.whole, holds c := by
    intro c inside
    rcases numeral.wholly with same | ⟨all, _⟩
    · rw [same] at inside
      rw [List.mem_singleton.mp inside]
      exact digit zero rfl
    · exact digits _ all c inside
  have fraction : ∀ c ∈ numeral.fraction, holds c := by
    intro c inside
    rcases numeral.fractional with same | ⟨ds, all, same⟩ <;> rw [same] at inside
    · cases inside
    · rcases List.mem_cons.mp inside with rfl | later
      · exact dot_
      · exact digits ds all c later
  have exponent : ∀ c ∈ numeral.exponent, holds c := by
    intro c inside
    rcases numeral.exponential with same | ⟨e, sign, ds, marker, powerSign, all, same⟩ <;>
      rw [same] at inside
    · cases inside
    · rcases List.mem_cons.mp inside with rfl | later
      · rcases marker with same | same <;> rw [same]
        · exact other letterE (by decide)
        · exact other capitalE (by decide)
      · rcases List.mem_append.mp later with signed | power
        · rcases powerSign with same | same | same <;> rw [same] at signed
          · cases signed
          · rwa [List.mem_singleton.mp signed]
          · rwa [List.mem_singleton.mp signed]
        · exact digits ds all c power
  intro c inside
  simp only [Numeral.text, List.mem_append] at inside
  rcases inside with here | here | here | here
  · exact sign c here
  · exact whole c here
  · exact fraction c here
  · exact exponent c here

theorem digit_plain {c : UInt8} (digit : isDigit c = true) : PlainByte c := by
  simp only [isDigit, Bool.and_eq_true, decide_eq_true_eq] at digit
  refine ⟨?_, ?_⟩
  · grind
  · intro same
    rw [same] at digit
    exact absurd digit.1 (by decide)

theorem numeral_clean (numeral : Numeral) : Clean numeral.text :=
  clean_plain (numeral_bytes PlainByte numeral (fun _ => digit_plain) (by decide +kernel))

theorem literal_clean (name : Literal) : Clean name.text := by
  apply clean_plain
  cases name <;> decide +kernel

theorem quoted_clean {s : Bytes} (clean : Clean s) : Clean (quote :: (s ++ [quote])) :=
  (clean.append (clean_nil.cons (by decide))).cons (by decide)

theorem blank_clean (blank : Blank) : Clean blank.val := by
  apply clean_plain
  intro c inside
  have white := blank.property c inside
  simp only [isWs, Bool.or_eq_true, beq_iff_eq] at white
  rcases white with ((rfl | rfl) | rfl) | rfl <;> decide

theorem scalar_clean {scalar : Scalar} (valid : scalar.Valid) : Clean scalar.text := by
  cases scalar with
  | literal name => exact literal_clean name
  | number numeral => exact numeral_clean numeral
  | string chars => exact quoted_clean (chars_clean valid)

theorem label_clean {lid : Lid} {label : Label lid} (valid : label.Valid) : Clean label.text := by
  cases label with
  | item lead => exact blank_clean lead
  | member name lead =>
      have spelled : (Label.member name lead).text = name.before.val ++
          ((quote :: (name.chars.text ++ [quote])) ++ (name.after.val ++ colon :: lead.val)) := by
        simp [Label.text, Name.text]
      rw [spelled]
      exact (blank_clean _).append ((quoted_clean (chars_clean valid)).append
        ((blank_clean _).append ((blank_clean _).cons (by decide))))

mutual

/-- A valid document survives a string. -/
theorem doc_clean : ∀ doc : Doc, doc.Valid → Clean doc.text
  | .leaf _, valid => scalar_clean valid
  | .empty lid blank, _ => by
      have tail := (blank_clean blank).append (clean_nil.cons (closer_plain lid))
      exact tail.cons (opener_plain lid)
  | .full lid early label last trail, valid => by
      obtain ⟨earlyValid, labelValid, lastValid, _⟩ := valid
      have tail := (body_clean early earlyValid).append ((label_clean labelValid).append
        ((doc_clean last lastValid).append
          ((blank_clean trail).append (clean_nil.cons (closer_plain lid)))))
      exact tail.cons (opener_plain lid)

theorem body_clean : ∀ {lid : Lid} (body : Body lid), body.Valid → Clean body.text
  | _, .none _, _ => clean_nil
  | _, .snoc front label doc trail, valid => by
      obtain ⟨frontValid, labelValid, docValid⟩ := valid
      exact (body_clean front frontValid).append ((label_clean labelValid).append
        ((doc_clean doc docValid).append ((blank_clean trail).append (clean_nil.cons (by decide)))))

end

/-! ## Printed values -/

theorem dump_string_clean (s : Bytes) : Clean (dumpString s) := by
  apply quoted_clean
  apply escaped_clean
  intro c inside
  simpa using List.mem_takeWhile_imp inside

theorem dump_number_clean (d : ℚ) : Clean (dumpNumber d) := by
  obtain ⟨numeral, text, _⟩ := dump_number_numeral d
  rw [← text]
  exact numeral_clean numeral

theorem separator_clean {first : Bool} : Clean (if first then [] else [comma]) := by
  cases first
  · exact clean_nil.cons (by decide)
  · exact clean_nil

mutual

/-- What is printed of a value survives a string. -/
theorem jv_dump_clean : ∀ v : Jv, Clean (jvDumpSep [comma] [colon] v)
  | .null => literal_clean .null
  | .bool true => literal_clean .true
  | .bool false => literal_clean .false
  | .num d => dump_number_clean d
  | .str s => dump_string_clean s
  | .arr items =>
      ((dump_items_clean true items).append (clean_nil.cons (by decide))).cons (by decide)
  | .obj keys items =>
      ((dump_members_clean true keys items).append (clean_nil.cons (by decide))).cons (by decide)

theorem dump_items_clean : ∀ (first : Bool) (items : List Jv),
    Clean (dumpItems [comma] [colon] first items)
  | _, [] => clean_nil
  | _, v :: items =>
      separator_clean.append ((jv_dump_clean v).append (dump_items_clean false items))

theorem dump_members_clean : ∀ (first : Bool) (keys : List Bytes) (items : List Jv),
    Clean (dumpMembers [comma] [colon] first keys items)
  | _, [], [] => clean_nil
  | _, _ :: _, [] => clean_nil
  | _, [], _ :: _ => clean_nil
  | _, key :: keys, v :: items =>
      separator_clean.append ((dump_string_clean key).append
        ((clean_nil.cons (by decide)).append
          ((jv_dump_clean v).append (dump_members_clean false keys items))))

end

end GridcoreRunner.Json
