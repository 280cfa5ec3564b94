import GridcoreRunner.Json.ModeReadBack
import GridcoreRunner.Json.ModeScalars

/-!
# The language of `json_mode`

The machine accepts exactly the prefixes of the objects that fit in its stack. A
value that fits is read to its end; one that does not fails at the bracket for
which there is no room, and no closing tail holds such a bracket.
-/

namespace GridcoreRunner.Json

set_option autoImplicit false

mutual

/-- How many containers stand around the innermost value. -/
def Doc.nesting : Doc → Nat
  | .leaf _ => 0
  | .empty _ _ => 1
  | .full _ early _ last _ => max early.nesting last.nesting + 1

def Body.nesting : {lid : Lid} → Body lid → Nat
  | _, .none _ => 0
  | _, .snoc front _ doc _ => max front.nesting doc.nesting

end

def Doc.isObject : Doc → Bool
  | .leaf _ => false
  | .empty lid _ => decide (lid = .brace)
  | .full lid _ _ _ _ => decide (lid = .brace)

/-- An object whose containers fit in the stack. -/
def Doc.Stacks (doc : Doc) : Prop := doc.isObject = true ∧ doc.nesting ≤ stackSize

/-! ## Containers -/

theorem push_room {v : Jsonv} {lid : Lid} (room : v.stack.length < stackSize) :
    push v lid = some { v with stack := lid :: v.stack } := by
  unfold push
  rw [if_neg (by omega)]

theorem push_full {v : Jsonv} {lid : Lid} (full : stackSize ≤ v.stack.length) :
    push v lid = none := by
  unfold push
  rw [if_pos full]

theorem leads_opener {v : Jsonv} {stack : List Lid} (awaits : v.Awaits stack) (lid : Lid)
    (room : stack.length < stackSize) : Leads v [lid.opener] (Jsonv.Entry lid stack) := by
  rcases awaits with ⟨place, same, running⟩
  cases lid with
  | brace =>
      apply leads_cons (w := { v with st := .keyOrEnd, stack := .brace :: v.stack })
      · apply awaits_round ⟨place, same, running⟩ (by decide)
        exact push_room (v := { v with st := .keyOrEnd }) (by rw [← same] at room; exact room)
      · exact leads_nil ⟨by rw [← same], running, Or.inl rfl⟩
  | bracket =>
      apply leads_cons (w := { v with st := .arrFirst, stack := .bracket :: v.stack })
      · apply awaits_round ⟨place, same, running⟩ (by decide)
        exact push_room (v := { v with st := .arrFirst }) (by rw [← same] at room; exact room)
      · exact leads_nil ⟨by rw [← same], running, Or.inl rfl⟩

theorem opener_full {v : Jsonv} {stack : List Lid} (awaits : v.Awaits stack) (lid : Lid)
    (full : stackSize ≤ stack.length) : feedRound v lid.opener = none := by
  rcases awaits with ⟨place, same, running⟩
  rw [← same] at full
  have refused : feedValue v lid.opener = none := by
    cases lid with
    | brace => exact push_full (v := { v with st := .keyOrEnd }) full
    | bracket => exact push_full (v := { v with st := .arrFirst }) full
  have other : lid.opener ≠ rbracket := by cases lid <;> decide
  rcases place with st | st <;> simp [feedRound, feedByte, st, refused, other]

theorem leads_blank {v : Jsonv} (skips : v.Skips) (blank : Blank) :
    Leads v blank.val fun w => w = v :=
  ⟨v, skips_blank skips _ blank.property, rfl⟩

/-- The name of a member, from a state in which one may begin. -/
theorem leads_name {v : Jsonv} {stack : List Lid} (entry : v.Entry .brace stack) (name : Name) :
    Leads v name.text fun w => w.At .colon (.brace :: stack) := by
  rcases entry with ⟨same, running, place⟩
  have skips : v.Skips := by rcases place with st | st <;> simp [Jsonv.Skips, st]
  unfold Name.text
  simp only [List.cons_append]
  apply leads_append (leads_blank skips name.before)
  rintro w rfl
  apply leads_cons (w := { w with st := .key, sub := 0 })
  · apply feed_round_read
    rcases place with st | st <;> simp [feedByte, st, show isWs quote = false by decide]
  have inside : Jsonv.Inside .key (.brace :: stack) { w with st := .key, sub := 0 } :=
    ⟨⟨rfl, same, running⟩, rfl⟩
  apply leads_append (leads_chars inside (Or.inl rfl) name.chars)
  rintro u ⟨at_, sub⟩
  apply leads_cons (w := { u with st := .colon })
  · apply inside_round at_ (Or.inl rfl)
    simp [feedString, sub, at_.1]
  have skips : Jsonv.Skips { u with st := .colon } := by simp [Jsonv.Skips]
  rcases leads_blank skips name.after with ⟨w, fed, rfl⟩
  exact ⟨_, fed, rfl, at_.2⟩

theorem leads_label {v : Jsonv} {lid : Lid} {stack : List Lid} (entry : v.Entry lid stack)
    (label : Label lid) : Leads v label.text fun w => w.Awaits (lid :: stack) := by
  cases label with
  | item lead =>
      rcases entry with ⟨same, running, place⟩
      have skips : v.Skips := by rcases place with st | st <;> simp [Jsonv.Skips, st]
      rcases leads_blank skips lead with ⟨w, fed, rfl⟩
      exact ⟨w, fed, place.symm, same, running⟩
  | member name lead =>
      apply leads_append (leads_name entry name)
      rintro w ⟨st, same, running⟩
      apply leads_cons (w := { w with st := .value })
      · apply feed_round_read
        simp [feedByte, st, show isWs colon = false by decide]
      have skips : Jsonv.Skips { w with st := .value } := by simp [Jsonv.Skips]
      rcases leads_blank skips lead with ⟨u, fed, rfl⟩
      exact ⟨_, fed, Or.inl rfl, same, running⟩

/-- An empty container, past its bracket. -/
theorem leads_empty {v : Jsonv} {lid : Lid} {stack : List Lid} (awaits : v.Awaits stack)
    (room : stack.length < stackSize) (blank : Blank) :
    Leads v (Doc.empty lid blank).text (Jsonv.Ended stack) := by
  rcases awaits with ⟨place, same, running⟩
  -- the state behind the bracket is the one in which the container may close at once
  have opens : ∃ w : Jsonv, feedRound v lid.opener = some w ∧ w.stack = lid :: stack ∧
      w.done = false ∧ w.st = if lid = .brace then St.keyOrEnd else St.arrFirst := by
    rw [← same] at room ⊢
    cases lid with
    | brace =>
        refine ⟨{ v with st := .keyOrEnd, stack := .brace :: v.stack }, ?_, rfl, running, rfl⟩
        exact awaits_round ⟨place, rfl, running⟩ (by decide)
          (push_room (v := { v with st := .keyOrEnd }) room)
    | bracket =>
        refine ⟨{ v with st := .arrFirst, stack := .bracket :: v.stack }, ?_, rfl, running, rfl⟩
        exact awaits_round ⟨place, rfl, running⟩ (by decide)
          (push_room (v := { v with st := .arrFirst }) room)
  rcases opens with ⟨w, round, inner, still, st⟩
  simp only [Doc.text, List.cons_append]
  apply leads_cons round
  have skips : w.Skips := by cases lid <;> simp [Jsonv.Skips, st]
  apply leads_append (leads_blank skips blank)
  rintro u rfl
  apply leads_cons (w := valueDone (pop u))
  · apply feed_round_read
    cases lid <;>
      simp [feedByte, st, Lid.closer, show isWs rbrace = false by decide,
        show rbrace ≠ quote by decide]
  · exact leads_nil (pop_ended inner still)

mutual

/-- A value that fits in the stack is read to its end. -/
theorem leads_doc : (doc : Doc) → {v : Jsonv} → {stack : List Lid} → v.Awaits stack →
    stack.length + doc.nesting ≤ stackSize →
      Leads v doc.text (Jsonv.Closed doc.isNumber stack)
  | .leaf scalar, _, _, awaits, _ => leads_scalar awaits scalar
  | .empty lid blank, v, stack, awaits, room => by
      have space : stack.length < stackSize := by
        simp only [Doc.nesting] at room
        omega
      rcases @leads_empty v lid stack awaits space blank with ⟨w, fed, ended⟩
      exact ⟨w, fed, Or.inl ended⟩
  | .full lid early label last trail, v, stack, awaits, room => by
      simp only [Doc.nesting] at room
      have whole : (Doc.full lid early label last trail).text =
          [lid.opener] ++ (early.text ++ (label.text ++ (last.text ++ (trail.val ++ [lid.closer])))) := by
        simp [Doc.text]
      rw [whole]
      apply leads_append (leads_opener awaits lid (by omega))
      intro w entry
      apply leads_append (leads_body early entry (by omega))
      intro w entry
      apply leads_append (leads_label entry label)
      intro w inner
      apply leads_append (leads_doc last inner (by simp only [List.length_cons]; omega))
      intro w closed
      have closes : Stop lid.closer := by cases lid <;> simp [Stop, Lid.closer]
      apply closed_trail closed trail closes
      intro u at_
      rcases leads_closer at_ with ⟨final, fed, ended⟩
      exact ⟨final, fed, Or.inl ended⟩

theorem leads_body : {lid : Lid} → (body : Body lid) → {v : Jsonv} → {stack : List Lid} →
    v.Entry lid stack → stack.length + 1 + body.nesting ≤ stackSize →
      Leads v body.text (Jsonv.Entry lid stack)
  | _, .none _, _, _, entry, _ => leads_nil entry
  | lid, .snoc front label doc trail, v, stack, entry, room => by
      simp only [Body.nesting] at room
      simp only [Body.text]
      apply leads_append (leads_body front entry (by omega))
      intro w entry
      apply leads_append (leads_label entry label)
      intro w inner
      apply leads_append (leads_doc doc inner (by simp only [List.length_cons]; omega))
      intro w closed
      exact closed_trail closed trail (Or.inr (Or.inl rfl)) fun u at_ => leads_comma at_

end

/-! ## Values that do not fit -/

/-- The machine refuses an opening bracket of the text, for want of room. -/
def Overflows (v : Jsonv) (s : Bytes) : Prop :=
  ∃ (front : Bytes) (lid : Lid) (back : Bytes) (u : Jsonv), s = front ++ lid.opener :: back ∧
    jsonvFeed v front = some u ∧ stackSize ≤ u.stack.length ∧ feedRound u lid.opener = none

theorem overflows_append {v : Jsonv} {s : Bytes} (exceeds : Overflows v s) (t : Bytes) :
    Overflows v (s ++ t) := by
  rcases exceeds with ⟨front, lid, back, u, rfl, fed, full, refused⟩
  exact ⟨front, lid, back ++ t, u, by simp, fed, full, refused⟩

theorem overflows_after {v : Jsonv} {s t : Bytes} {middle : Jsonv → Prop}
    (first : Leads v s middle) (second : ∀ w, middle w → Overflows w t) :
    Overflows v (s ++ t) := by
  rcases first with ⟨w, fed, reached⟩
  rcases second w reached with ⟨front, lid, back, u, rfl, later, full, refused⟩
  refine ⟨s ++ front, lid, back, u, by simp, ?_, full, refused⟩
  rw [jsonv_feed_append, fed]
  exact later

theorem opener_overflows {v : Jsonv} {stack : List Lid} (awaits : v.Awaits stack) (lid : Lid)
    (full : stackSize ≤ stack.length) (s : Bytes) : Overflows v (lid.opener :: s) := by
  refine ⟨[], lid, s, v, rfl, rfl, ?_, opener_full awaits lid full⟩
  rw [awaits.2.1]
  exact full

mutual

theorem doc_overflows : (doc : Doc) → {v : Jsonv} → {stack : List Lid} → v.Awaits stack →
    stack.length ≤ stackSize → stackSize < stack.length + doc.nesting → Overflows v doc.text
  | .leaf scalar, _, stack, _, bound, exceeds => by
      simp only [Doc.nesting] at exceeds
      omega
  | .empty lid blank, _, stack, awaits, bound, exceeds => by
      simp only [Doc.nesting] at exceeds
      exact opener_overflows awaits lid (by omega) _
  | .full lid early label last trail, v, stack, awaits, bound, exceeds => by
      simp only [Doc.nesting] at exceeds
      by_cases full : stackSize ≤ stack.length
      · exact opener_overflows awaits lid full _
      have whole : (Doc.full lid early label last trail).text =
          [lid.opener] ++ (early.text ++ (label.text ++ (last.text ++ (trail.val ++ [lid.closer])))) := by
        simp [Doc.text]
      rw [whole]
      apply overflows_after (leads_opener awaits lid (by omega))
      intro w entry
      by_cases fits : stack.length + 1 + early.nesting ≤ stackSize
      · apply overflows_after (leads_body early entry fits)
        intro w entry
        apply overflows_after (leads_label entry label)
        intro w inner
        apply overflows_append
        apply doc_overflows last inner
        · simp only [List.length_cons]
          omega
        · simp only [List.length_cons]
          omega
      · apply overflows_append
        exact body_overflows early entry (by omega) (by omega)

theorem body_overflows : {lid : Lid} → (body : Body lid) → {v : Jsonv} → {stack : List Lid} →
    v.Entry lid stack → stack.length + 1 ≤ stackSize →
      stackSize < stack.length + 1 + body.nesting → Overflows v body.text
  | _, .none _, _, _, _, bound, exceeds => by
      simp only [Body.nesting] at exceeds
      omega
  | lid, .snoc front label doc trail, v, stack, entry, bound, exceeds => by
      simp only [Body.nesting] at exceeds
      simp only [Body.text]
      by_cases fits : stack.length + 1 + front.nesting ≤ stackSize
      · apply overflows_after (leads_body front entry fits)
        intro w entry
        apply overflows_after (leads_label entry label)
        intro w inner
        apply overflows_append
        apply doc_overflows doc inner
        · simp only [List.length_cons]
          omega
        · simp only [List.length_cons]
          omega
      · apply overflows_append
        exact body_overflows front entry bound (by omega)

end

/-! ## The language -/

/-- A closing tail opens no container. -/
def Shut (s : Bytes) : Prop := ∀ c ∈ s, c ≠ lbrace ∧ c ≠ lbracket

theorem shut_of_all {s : Bytes} (all : s.all (fun c => c != lbrace && c != lbracket) = true) :
    Shut s := by
  intro c member
  have here := List.all_eq_true.mp all c member
  simpa using here

theorem shut_append {s t : Bytes} (front : Shut s) (back : Shut t) : Shut (s ++ t) := by
  intro c member
  rcases List.mem_append.mp member with here | there
  · exact front c here
  · exact back c there

theorem shut_drop {s : Bytes} (shut : Shut s) (count : Nat) : Shut (s.drop count) :=
  fun c member => shut c (List.mem_of_mem_drop member)

theorem shut_escape (sub esc : Nat) : Shut (jsonEscapeClose sub esc) := by
  have low : ∀ sub : Nat, Shut (closeLow sub) := by
    intro sub
    unfold closeLow
    apply shut_append
    · apply shut_append <;> split_ifs <;> exact shut_of_all (by decide)
    · split_ifs
      · exact shut_drop (shut_of_all (by decide)) _
      all_goals first
        | exact shut_drop (shut_of_all (by decide)) _
        | exact shut_of_all (by decide)
  have zeros : ∀ count : Nat, Shut (List.replicate count zero) := by
    intro count c member
    rw [List.eq_of_mem_replicate member]
    decide
  unfold jsonEscapeClose
  split_ifs
  · exact shut_of_all (by decide)
  · apply shut_append _ (low _)
    unfold closeDigits
    dsimp only
    split_ifs
    · exact shut_append (zeros _) (shut_of_all (by decide))
    · exact zeros _
    · exact shut_append (zeros _) (shut_of_all (by decide))
    · exact zeros _
  · exact low _

theorem shut_containers (stack : List Lid) (st : St) (done_ : Bool) :
    Shut (closeContainers st done_ stack) := by
  induction stack generalizing st done_ with
  | nil => exact shut_of_all rfl
  | cons top stack induction =>
      unfold closeContainers
      split_ifs
      · have closer : Shut [top.closer] := by cases top <;> exact shut_of_all (by decide)
        exact shut_append closer (induction _ _)
      · exact shut_of_all rfl

theorem shut_literal (which : Nat) : Shut (LITS which) := by
  unfold LITS
  split <;> exact shut_of_all (by decide)

/-- What each step of the closer writes. -/
theorem shut_parts (v : Jsonv) :
    Shut (closeString v).1 ∧ Shut (closeColon v).1 ∧ Shut (closeKey v).1 ∧
      Shut (closeLiteral v).1 ∧ Shut (closeNumber v).1 ∧ Shut (closeValue v).1 := by
  refine ⟨?_, ?_, ?_, ?_, ?_, ?_⟩
  · unfold closeString
    split_ifs
    · exact shut_append (shut_escape _ _) (shut_of_all (by decide))
    · exact shut_append (shut_escape _ _) (shut_of_all (by decide))
    · exact shut_of_all rfl
  · unfold closeColon
    split_ifs <;> exact shut_of_all rfl
  · unfold closeKey
    split_ifs <;> exact shut_of_all rfl
  · unfold closeLiteral
    split_ifs
    · exact shut_drop (shut_literal _) _
    · exact shut_of_all rfl
  · unfold closeNumber
    split_ifs <;> exact shut_of_all rfl
  · unfold closeValue
    split_ifs <;> exact shut_of_all rfl

theorem closing_tail_shut (v : Jsonv) : Shut (closingTail v) := by
  unfold closingTail
  split_ifs
  · exact shut_of_all rfl
  dsimp only
  refine shut_append (shut_append (shut_append (shut_append (shut_append (shut_append ?_ ?_) ?_) ?_)
    ?_) ?_) (shut_containers _ _ _)
  · exact (shut_parts _).1
  · exact (shut_parts _).2.1
  · exact (shut_parts _).2.2.1
  · exact (shut_parts _).2.2.2.1
  · exact (shut_parts _).2.2.2.2.1
  · exact (shut_parts _).2.2.2.2.2

theorem any_awaits : jsonvInitAny.Awaits [] := ⟨Or.inl rfl, rfl, rfl⟩

/-- Behind its first brace, an object is read like any other value. -/
theorem init_feed_brace (s : Bytes) :
    jsonvFeed jsonvInit (lbrace :: s) = jsonvFeed jsonvInitAny (lbrace :: s) := by
  rw [jsonv_feed_cons, jsonv_feed_cons]
  rfl

theorem init_feed_other {c : UInt8} (other : c ≠ lbrace) (s : Bytes) :
    jsonvFeed jsonvInit (c :: s) = none := by
  rw [jsonv_feed_cons]
  simp [feedRound, feedByte, jsonvInit, other]

theorem object_text {doc : Doc} (object : doc.isObject = true) :
    ∃ s : Bytes, doc.text = lbrace :: s := by
  cases doc with
  | leaf scalar => cases object
  | empty lid blank =>
      have brace : lid = .brace := of_decide_eq_true object
      subst brace
      exact ⟨_, rfl⟩
  | full lid early label last trail =>
      have brace : lid = .brace := of_decide_eq_true object
      subst brace
      exact ⟨_, rfl⟩

theorem numeral_text_head (numeral : Numeral) (s : Bytes) : numeral.text ≠ lbrace :: s := by
  intro text
  have whole : ∀ t : Bytes, numeral.whole ++ t ≠ lbrace :: s := by
    intro t same
    rcases numeral.wholly with nought | ⟨digits, _⟩
    · rw [nought] at same
      exact absurd (List.cons.inj same).1 (by decide)
    · cases spelled : numeral.whole with
      | nil => exact digits.1 spelled
      | cons c ds =>
          rw [spelled] at same
          have digit := digits.2 c (by simp [spelled])
          rw [(List.cons.inj same).1] at digit
          exact absurd digit (by decide)
  unfold Numeral.text at text
  rcases numeral.signed with bare | minus_
  · rw [bare] at text
    exact whole _ text
  · rw [minus_] at text
    exact absurd (List.cons.inj text).1 (by decide)

/-- A value that begins with a brace is an object. -/
theorem object_of_text {doc : Doc} {s : Bytes} (text : doc.text = lbrace :: s) :
    doc.isObject = true := by
  have opener : ∀ {lid : Lid} {t : Bytes}, lid.opener :: t = lbrace :: s →
      decide (lid = .brace) = true := by
    intro lid t same
    cases lid with
    | brace => rfl
    | bracket => exact absurd (List.cons.inj same).1 (by decide)
  cases doc with
  | empty lid blank => exact opener text
  | full lid early label last trail => exact opener text
  | leaf scalar =>
      exfalso
      cases scalar with
      | literal name => cases name <;> exact absurd (List.cons.inj text).1 (by decide)
      | number numeral => exact numeral_text_head numeral s text
      | string chars => exact absurd (List.cons.inj text).1 (by decide)

/-- An object that fits is a finished text. -/
theorem object_accepted {doc : Doc} (fits : doc.Stacks) :
    ∃ w, jsonvFeed jsonvInit doc.text = some w ∧ w.done = true := by
  have room : ([] : List Lid).length + doc.nesting ≤ stackSize := by simpa using fits.2
  rcases object_text fits.1 with ⟨s, text⟩
  rcases leads_doc doc any_awaits room with ⟨w, fed, closed⟩
  rw [text, ← init_feed_brace, ← text] at fed
  apply Exists.intro w
  apply And.intro fed
  rcases closed with ended | ⟨number, _⟩
  · have later := ended.2
    rw [if_pos rfl] at later
    exact later.2
  · cases doc with
    | leaf scalar => cases fits.1
    | empty lid blank => cases number
    | full lid early label last trail => cases number

theorem accepted_head {p : Bytes} {v : Jsonv} (fed : jsonvFeed jsonvInit p = some v)
    (begun : p ≠ []) : ∃ s : Bytes, p = lbrace :: s := by
  cases p with
  | nil => exact absurd rfl begun
  | cons c s =>
      by_cases brace : c = lbrace
      · exact ⟨s, by rw [brace]⟩
      · rw [init_feed_other brace] at fed
        cases fed

theorem lead_before_brace {lead : Blank} {t s : Bytes} (same : lead.val ++ t = lbrace :: s) :
    lead.val = [] := by
  rcases lead with ⟨bytes, blank⟩
  cases bytes with
  | nil => rfl
  | cons c bytes =>
      have ws := blank c (by simp)
      rw [(List.cons.inj same).1] at ws
      exact absurd ws (by decide)

/-- The closing tail of an accepted text makes it an object that fits. -/
theorem closing_tail_stacks {p : Bytes} {v : Jsonv} (fed : jsonvFeed jsonvInit p = some v)
    (begun : p ≠ []) : ∃ doc : Doc, doc.Stacks ∧ p ++ closingTail v = doc.text := by
  rcases accepted_text (Or.inl rfl) fed with ⟨o, text, shows⟩
  have open_ : o ≠ .start := by
    rintro rfl
    exact begun text.symm
  rcases closing_tail_finishes shows open_ with ⟨lead, doc, whole, _⟩
  rcases accepted_head fed begun with ⟨s, first⟩
  have bare : lead.val = [] := by
    apply @lead_before_brace lead doc.text (s ++ closingTail v)
    rw [← whole, text, first, List.cons_append]
  rw [text, bare, List.nil_append] at whole
  have begins : doc.text = lbrace :: (s ++ closingTail v) := by
    rw [← whole, first, List.cons_append]
  refine ⟨doc, ⟨object_of_text begins, ?_⟩, whole⟩
  by_contra deep
  have exceeds := doc_overflows doc any_awaits (Nat.zero_le _) (by simpa using deep)
  rcases exceeds with ⟨front, lid, back, u, split, reached, _, full⟩
  have refused : jsonvFeed jsonvInitAny (front ++ [lid.opener]) = none := by
    rw [jsonv_feed_append, reached, Option.bind_some, jsonv_feed_cons, full]
    rfl
  rw [← whole] at split
  have tailless : lid.opener ∉ closingTail v := by
    intro member
    have shut := closing_tail_shut v lid.opener member
    cases lid with
    | brace => exact shut.1 rfl
    | bracket => exact shut.2 rfl
  -- the bracket that is refused stands in the tail or in the text
  rcases List.append_eq_append_iff.mp split with ⟨rest, _, late⟩ | ⟨rest, early, later⟩
  · apply tailless
    rw [late]
    simp
  · cases rest with
    | nil =>
        apply tailless
        rw [List.nil_append] at later
        rw [← later]
        simp
    | cons c rest =>
        rw [← (List.cons.inj later).1] at early
        have joined : p = (front ++ [lid.opener]) ++ rest := by simp [early]
        rw [joined] at fed
        rcases accepted_front fed with ⟨w, taken⟩
        rcases accepted_head taken (by simp) with ⟨t, spelled⟩
        rw [spelled, init_feed_brace, ← spelled, refused] at taken
        cases taken

/-- The machine accepts the prefixes of the objects that fit in its stack and is done
with the objects themselves. Every accepted text can go on to one, and the closing
tail makes one of every text that has begun. -/
theorem json_mode_language (p : Bytes) :
    ((∃ v, jsonvFeed jsonvInit p = some v) ↔ ∃ doc : Doc, doc.Stacks ∧ p <+: doc.text) ∧
      ∀ v, jsonvFeed jsonvInit p = some v →
        (v.done = true ↔ ∃ doc : Doc, doc.Stacks ∧ p = doc.text) ∧
          (∃ rest w, jsonvFeed jsonvInit (p ++ rest) = some w ∧ w.done = true) ∧
            (p ≠ [] → ∀ cap, (closingTail v).length < cap →
              ∃ w, jsonvFeed jsonvInit (p ++ jsonvClose v cap) = some w ∧ w.done = true) := by
  have bare : Doc.Stacks (.empty .brace Blank.none) := ⟨rfl, by decide⟩
  have closes : ∀ v, jsonvFeed jsonvInit p = some v → p ≠ [] →
      ∃ w, jsonvFeed jsonvInit (p ++ closingTail v) = some w ∧ w.done = true := by
    intro v fed begun
    rcases closing_tail_stacks fed begun with ⟨doc, fits, whole⟩
    rw [whole]
    exact object_accepted fits
  constructor
  · constructor
    · rintro ⟨v, fed⟩
      by_cases begun : p = []
      · exact ⟨_, bare, by rw [begun]; exact List.nil_prefix⟩
      · rcases closing_tail_stacks fed begun with ⟨doc, fits, whole⟩
        exact ⟨doc, fits, closingTail v, whole⟩
    · rintro ⟨doc, fits, rest, whole⟩
      rcases object_accepted fits with ⟨w, fed, _⟩
      rw [← whole] at fed
      exact accepted_front fed
  · intro v fed
    refine ⟨⟨?_, ?_⟩, ?_, ?_⟩
    · intro done_
      have begun : p ≠ [] := by
        rintro rfl
        cases fed
        cases done_
      rcases closing_tail_stacks fed begun with ⟨doc, fits, whole⟩
      rw [closing_tail_done done_, List.append_nil] at whole
      exact ⟨doc, fits, whole⟩
    · rintro ⟨doc, fits, rfl⟩
      rcases object_accepted fits with ⟨w, taken, done_⟩
      rw [fed] at taken
      cases taken
      exact done_
    · by_cases begun : p = []
      · rcases object_accepted bare with ⟨w, taken, done_⟩
        exact ⟨_, w, by rw [begun]; exact taken, done_⟩
      · exact ⟨closingTail v, closes v fed begun⟩
    · intro begun cap room
      have unclipped : jsonvClose v cap = closingTail v := List.take_of_length_le (by omega)
      rw [unclipped]
      exact closes v fed begun

/-- `{"a":[tr`. -/
def openLiteral : Bytes := [lbrace, quote, 0x61, quote, colon, lbracket, 0x74, 0x72]

theorem open_literal_closed : ∃ v, jsonvFeed jsonvInit openLiteral = some v ∧ v.done = false ∧
    jsonvClose v 16 = [0x75, 0x65, rbracket, rbrace] ∧
      ∃ w, jsonvFeed jsonvInit (openLiteral ++ jsonvClose v 16) = some w ∧ w.done = true := by
  obtain ⟨v, fed⟩ : ∃ v, jsonvFeed jsonvInit openLiteral = some v := ⟨_, rfl⟩
  have tail : closingTail v = [0x75, 0x65, rbracket, rbrace] := by
    cases fed
    rfl
  have closes := ((json_mode_language openLiteral).2 v fed).2.2 (List.cons_ne_nil _ _) 16
    (by rw [tail]; decide)
  refine ⟨v, fed, ?_, ?_, closes⟩
  · cases fed
    rfl
  · unfold jsonvClose
    rw [tail]
    rfl

/-- A JSON text: a value and the blanks around it. -/
def Doc.spaced (lead : Blank) (doc : Doc) (trail : Blank) : Bytes :=
  lead.val ++ (doc.text ++ trail.val)

/-- A blank of one space. -/
def Blank.space : Blank := Blank.none.snoc 0x20 (by decide)

/-- ` {}` and `{} ` are JSON texts of an object, and the machine takes neither; an empty
text is accepted and its closing tail leaves it empty. -/
theorem blank_around_refused :
    Doc.Stacks (.empty .brace Blank.none) ∧
      (jsonvFeed jsonvInit ((Doc.empty .brace Blank.none).spaced Blank.space Blank.none)).isNone =
        true ∧
      (jsonvFeed jsonvInit ((Doc.empty .brace Blank.none).spaced Blank.none Blank.space)).isNone =
        true ∧
      jsonvFeed jsonvInit [] = some jsonvInit ∧ jsonvInit.done = false ∧
      closingTail jsonvInit = [] :=
  ⟨⟨rfl, by decide⟩, by decide, by decide, rfl, rfl, rfl⟩

end GridcoreRunner.Json
