import GridcoreRunner.Json.Grammar

/-!
# Documents put together

A container is written as its opening byte, entries with a comma in front of each but the
first, and its closing byte. Such a text is a document when the entries are.
-/

namespace GridcoreRunner.Json

set_option autoImplicit false

variable {lid : Lid}

/-- Entries behind each other, without blanks between them. -/
def entriesText : Bool → List (Label lid × Doc) → Bytes
  | _, [] => []
  | first, (label, doc) :: entries =>
      (if first then [] else [comma]) ++ (label.text ++ (doc.text ++ entriesText false entries))

def entryKeys (entries : List (Label lid × Doc)) : List Bytes := entries.flatMap fun entry => entry.1.keys

def entryItems (entries : List (Label lid × Doc)) : List Jv := entries.map fun entry => entry.2.jv

theorem entries_text_append (first : Bool) (front back : List (Label lid × Doc)) :
    entriesText first (front ++ back) =
      entriesText first front ++ entriesText (first && front.isEmpty) back := by
  induction front generalizing first with
  | nil => simp [entriesText]
  | cons entry front induction => simp [entriesText, induction]

theorem entries_body (entries : List (Label lid × Doc)) : ∃ body : Body lid,
    body.text = entriesText true entries ++ (if entries = [] then [] else [comma]) ∧
      body.keys = entryKeys entries ∧ body.items = entryItems entries ∧
      ((∀ entry ∈ entries, entry.1.Valid ∧ entry.2.Valid) → body.Valid) ∧
      ∀ room, (∀ entry ∈ entries, entry.2.depth ≤ room) → body.depth ≤ room := by
  induction entries using List.reverseRecOn with
  | nil => exact ⟨.none lid, rfl, rfl, rfl, fun _ => trivial, fun room _ => Nat.zero_le room⟩
  | append_singleton entries entry induction =>
      obtain ⟨body, text, keys, items, valid, depth⟩ := induction
      obtain ⟨label, doc⟩ := entry
      have last : (label, doc) ∈ entries ++ [(label, doc)] :=
        List.mem_append_right _ List.mem_cons_self
      refine ⟨.snoc body label doc Blank.none, ?_, ?_, ?_, ?_, ?_⟩
      · rw [Body.text, text, entries_text_append]
        by_cases none_ : entries = [] <;> simp [none_, entriesText, Blank.none]
      · simp [Body.keys, keys, entryKeys]
      · simp [Body.items, items, entryItems]
      · intro all
        have here := all _ last
        exact ⟨valid fun other inside => all other (List.mem_append_left _ inside), here.1, here.2⟩
      · intro room all
        rw [Body.depth]
        exact Nat.max_le.mpr
          ⟨depth room fun other inside => all other (List.mem_append_left _ inside), all _ last⟩

/-- A container of documents is a document. -/
theorem container_doc (entries : List (Label lid × Doc)) : ∃ doc : Doc,
    doc.text = lid.opener :: (entriesText true entries ++ [lid.closer]) ∧
      doc.jv = lid.jv (entryKeys entries) (entryItems entries) ∧
      ((∀ entry ∈ entries, entry.1.Valid ∧ entry.2.Valid) → (entryKeys entries).Nodup → doc.Valid) ∧
      ∀ room, (∀ entry ∈ entries, entry.2.depth ≤ room) → doc.depth ≤ room + 1 := by
  rcases List.eq_nil_or_concat entries with none_ | ⟨front, ⟨label, last⟩, split⟩
  · rw [none_]
    exact ⟨.empty lid Blank.none, rfl, rfl, fun _ _ => trivial, fun room _ => Nat.succ_pos room⟩
  · rw [List.concat_eq_append] at split
    rw [split]
    obtain ⟨body, text, keys, items, valid, depth⟩ := entries_body front
    have here : (label, last) ∈ front ++ [(label, last)] :=
      List.mem_append_right _ List.mem_cons_self
    have allKeys : entryKeys (front ++ [(label, last)]) = body.keys ++ label.keys := by
      simp [keys, entryKeys]
    have allItems : entryItems (front ++ [(label, last)]) = body.items ++ [last.jv] := by
      simp [items, entryItems]
    refine ⟨.full lid body label last Blank.none, ?_, ?_, ?_, ?_⟩
    · rw [Doc.text, text, entries_text_append]
      by_cases none_ : front = [] <;> simp [none_, entriesText, Blank.none]
    · rw [Doc.jv, allKeys, allItems]
    · intro all distinct
      have own := all _ here
      refine ⟨valid fun other inside => all other (List.mem_append_left _ inside), own.1, own.2, ?_⟩
      rw [← allKeys]
      exact distinct
    · intro room all
      have early := depth room fun other inside => all other (List.mem_append_left _ inside)
      have own := all _ here
      rw [Doc.depth]
      exact Nat.succ_le_succ (Nat.max_le.mpr ⟨early, own⟩)

/-- A member without blanks. -/
def bareLabel (key : Chars) : Label .brace := .member ⟨Blank.none, key, Blank.none⟩ Blank.none

@[simp] theorem bare_label_text (key : Chars) :
    (bareLabel key).text = quote :: (key.text ++ [quote, colon]) := by
  simp [bareLabel, Label.text, Name.text, Blank.none]

@[simp] theorem bare_label_keys (key : Chars) : (bareLabel key).keys = [key.decode] := rfl

/-- An entry of an array without blanks. -/
def bareItem : Label .bracket := .item Blank.none

@[simp] theorem bare_item_text : bareItem.text = [] := rfl

@[simp] theorem bare_item_keys : bareItem.keys = [] := rfl

end GridcoreRunner.Json
