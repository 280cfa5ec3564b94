import GridcoreRunner.Engine.ForcedTail
import GridcoreRunner.Engine.State

/-!
# Where the payload of a thinking model begins

What a run of accepted tokens leaves behind, told from the text they spell: the two tag
scans over the whole text say where the prelude ends, and in the probe phase the bytes
that begin no payload are passed over.
-/

namespace GridcoreRunner.Generation

set_option autoImplicit false

open GridcoreRunner.Overlap

variable {V σ κ Logits : Type*} {c : Config V σ κ Logits} {m : Machine V} {open_ close : Bytes}

/-! ## The scan of the opening tag -/

/-- Once the tag has begun, its other bytes follow one after the other. -/
theorem probe_scan_begun {matched : Nat} (begun : 0 < matched) (inside : matched < open_.length)
    (s : Bytes) : (probeScan open_ matched s).1.isSome = true ↔ open_.drop matched <+: s := by
  induction s generalizing matched with
  | nil =>
      have some_ : open_.drop matched ≠ [] := by simpa using inside
      simp [probeScan, some_]
  | cons b s induction =>
      have front : open_.drop matched = open_[matched] :: open_.drop (matched + 1) :=
        List.drop_eq_getElem_cons inside
      have letter : open_[matched]? = some open_[matched] := List.getElem?_eq_getElem inside
      rw [probeScan, if_neg (by simp; omega), front, List.cons_prefix_cons, letter]
      by_cases same : open_[matched] = b
      · rw [if_neg (by simp [same])]
        by_cases last : matched + 1 = open_.length
        · have nothing : open_.drop (matched + 1) = [] := by simp [last]
          rw [if_neg (by simp [last]), nothing]
          simp [same]
        · rw [if_pos last, induction (by omega) (by omega)]
          simp [same]
      · rw [if_pos (by simpa using same)]
        simp [same]

/-- A tag that does not begin with a blank is found behind blanks and nowhere else. -/
theorem probe_scan_found_iff {first : UInt8} {rest : Bytes} (spelled : open_ = first :: rest)
    (dark : isWs first = false) (b : Bytes) :
    (probeScan open_ 0 b).1.isSome = true ↔
      ∃ w, (∀ x ∈ w, isWs x = true) ∧ w ++ open_ <+: b := by
  induction b with
  | nil =>
      simp only [probeScan, Option.isSome_none, Bool.false_eq_true, false_iff, not_exists, not_and]
      intro w _ front
      have empty := List.prefix_nil.mp front
      rw [spelled] at empty
      simp at empty
  | cons b s induction =>
      by_cases blank : isWs b = true
      · rw [probeScan, if_pos (by simp [blank]), induction]
        constructor
        · rintro ⟨w, blanks, front⟩
          refine ⟨b :: w, ?_, List.cons_prefix_cons.mpr ⟨rfl, front⟩⟩
          intro x inside
          rcases List.mem_cons.mp inside with rfl | later
          · exact blank
          · exact blanks x later
        · rintro ⟨w, blanks, front⟩
          cases w with
          | nil =>
              rw [spelled] at front
              have same := (List.cons_prefix_cons.mp front).1
              rw [same, blank] at dark
              cases dark
          | cons x w =>
              exact ⟨w, fun y inside => blanks y (List.mem_cons_of_mem x inside),
                (List.cons_prefix_cons.mp front).2⟩
      · have only : (∃ w, (∀ x ∈ w, isWs x = true) ∧ w ++ open_ <+: b :: s) ↔ open_ <+: b :: s := by
          constructor
          · rintro ⟨w, blanks, front⟩
            cases w with
            | nil => exact front
            | cons x w =>
                have same := (List.cons_prefix_cons.mp front).1
                rw [← same] at blank
                exact absurd (blanks x List.mem_cons_self) blank
          · intro front
            exact ⟨[], by simp, front⟩
        have letter : open_[0]? = some first := by rw [spelled]; rfl
        rw [only, probeScan, if_neg (by simp [blank]), letter]
        by_cases same : first = b
        · rw [if_neg (by simp [same])]
          by_cases last : 0 + 1 = open_.length
          · have short : rest = [] := by
              rw [spelled] at last
              simpa using last
            rw [if_neg (by simp [last]), spelled, short, same]
            simp
          · have size : open_.length = rest.length + 1 := by rw [spelled]; rfl
            have inside : 0 + 1 < open_.length := by omega
            rw [if_pos last, probe_scan_begun (Nat.succ_pos 0) inside, spelled,
              List.cons_prefix_cons]
            simp [same]
        · rw [if_pos (by simpa using same), spelled, List.cons_prefix_cons]
          simp [same]

/-- A tag that begins with a blank is never found: blanks stay possible, and any other
byte ends the search. -/
theorem probe_scan_blank_tag {first : UInt8} {rest : Bytes} (spelled : open_ = first :: rest)
    (blank : isWs first = true) (b : Bytes) :
    probeScan open_ 0 b = (none, b.all isWs, 0) := by
  induction b with
  | nil => rfl
  | cons b s induction =>
      by_cases light : isWs b = true
      · rw [probeScan, if_pos (by simp [light]), induction]
        simp [light]
      · have other : first ≠ b := by
          rintro rfl
          exact light blank
        have letter : open_[0]? = some first := by rw [spelled]; rfl
        rw [probeScan, if_neg (by simp [light]), letter, if_pos (by simpa using other)]
        simp [light]

/-! ## Which tokens are accepted -/

/-- Whether a token of the thinking block is accepted. -/
def thinkTakes (c : Config V σ κ Logits) (count : Nat) (bytes : Bytes) : Bool :=
  match afterClose (c.thinkClose.getD []) count bytes with
  | (none, _) => true
  | (some later, _) => later.isEmpty || (payloadTrial c c.payload.init later).isSome

theorem feed_think_takes (g : Gen V σ κ) (bytes : Bytes) :
    (feedThink c g bytes).ok = thinkTakes c g.closeMatch bytes := by
  have spec := feed_think_from (c := c) (g := g) (c.thinkClose.getD []) bytes 0 bytes
  unfold feedThink thinkTakes
  rcases found : afterClose (c.thinkClose.getD []) g.closeMatch bytes with ⟨_ | later, kept⟩
  · exact (spec.1 kept found).1
  · rw [(spec.2 later kept found).1]
    have fed : (constraintPayloadFeed c (closed c g) later).isSome =
        (payloadTrial c c.payload.init later).isSome := Option.isSome_map
    rw [fed]

/-- The fields that say which tokens an engine accepts. -/
structure SameFace (g g' : Gen V σ κ) : Prop where
  phase : g.phase = g'.phase
  possible : g.tagPossible = g'.tagPossible
  matched : g.tagMatch = g'.tagMatch
  closing : g.closeMatch = g'.closeMatch
  pv : g.pv = g'.pv

theorem hear_accepts (c : Config V σ κ Logits) (h : Heard V σ κ) (bytes : Bytes) :
    (hear c h bytes).isSome = (constraintFeed c h.gen bytes).ok := by
  unfold hear
  dsimp only
  split_ifs with ok <;> simp [ok]

theorem SameFace.accepts {g g' : Gen V σ κ} (same : SameFace g g') (bytes : Bytes) :
    (constraintFeed c g bytes).ok = (constraintFeed c g' bytes).ok := by
  have output : ∀ g g' : Gen V σ κ, g.pv = g'.pv →
      (feedOutput c g bytes).ok = (feedOutput c g' bytes).ok := by
    intro g g' pv
    unfold feedOutput constraintPayloadFeed
    rw [pv]
    cases payloadTrial c g'.pv bytes <;> rfl
  unfold constraintFeed
  rw [same.phase]
  cases phase : g'.phase with
  | output => exact output g g' same.pv
  | afterThink => exact output _ _ same.pv
  | think =>
      show (feedThink c g bytes).ok = (feedThink c g' bytes).ok
      rw [feed_think_takes, feed_think_takes, same.closing]
  | probe =>
      show (feedProbe c g bytes).ok = (feedProbe c g' bytes).ok
      have scan : probed c g bytes = probed c g' bytes := by
        unfold probed
        rw [same.possible, same.matched]
      rcases here : probed c g' bytes with ⟨_ | rest, possible, count⟩
      · rw [(feed_probe_none here).1, (feed_probe_none (scan.trans here)).1, same.pv]
      · rw [(feed_probe_some here).1, (feed_probe_some (scan.trans here)).1, feed_think_takes,
          feed_think_takes]
        rfl

/-! ## Tokens of the payload and of the thinking block -/

theorem hear_output (reads : c.payload = m.payload) {h next : Heard V σ κ} {bytes : Bytes}
    (phase : h.gen.phase = .output) (heard : hear c h bytes = some next) :
    m.feed h.gen.pv bytes = some next.gen.pv ∧ next.taken = h.taken ++ bytes ∧
      next.opened = h.opened ∧ next.gen.phase = .output ∧
        next.gen.tagPossible = h.gen.tagPossible ∧ next.gen.tagMatch = h.gen.tagMatch ∧
          next.gen.closeMatch = h.gen.closeMatch := by
  rcases hear_some heard with ⟨ok, rfl⟩
  have unseen : tagSeen c h.gen bytes = none := by simp [tagSeen, phase]
  unfold constraintFeed at ok ⊢
  unfold takes
  simp only [phase, unseen, Option.isSome_none, Bool.or_false] at ok ⊢
  rcases feed_output_ok ok with ⟨v, fed, spec⟩
  have frame := cdoc_put_frame { h.gen with pv := v } bytes
  rw [spec, frame.1, frame.2.1, frame.2.2.1, frame.2.2.2.1, frame.2.2.2.2]
  exact ⟨payload_trial_some reads fed, trivial, trivial, phase, rfl, rfl, rfl⟩

/-- Behind a text that began in the thinking block: still in the block, or in the payload
that follows its end. -/
def Thought (m : Machine V) (close text : Bytes) (h : Heard V σ κ) : Prop :=
  match afterClose close 0 text with
  | (none, kept) =>
      h.gen.phase = .think ∧ h.gen.closeMatch = kept ∧ h.taken = [] ∧ h.gen.pv = m.init
  | (some rest, _) =>
      h.gen.phase = .output ∧ h.gen.closeMatch = 0 ∧ h.taken = rest ∧
        m.feed m.init rest = some h.gen.pv

/-- The tag fields at rest, as the thinking block leaves them. -/
def Settled (h : Heard V σ κ) : Prop := h.gen.tagPossible = false ∧ h.gen.tagMatch = 0

theorem feed_think_thought (reads : c.payload = m.payload)
    (tag : c.thinkClose = some close) {g : Gen V σ κ} {bytes : Bytes}
    (ok : (feedThink c g bytes).ok = true) :
    match afterClose close g.closeMatch bytes with
    | (none, kept) => (feedThink c g bytes).gen = { g with closeMatch := kept }
    | (some rest, _) => ∃ v, m.feed m.init rest = some v ∧
        (feedThink c g bytes).gen = cdocPut { closed c g with pv := v } rest := by
  have tag_ : c.thinkClose.getD [] = close := by rw [tag]; rfl
  rcases found : afterClose close g.closeMatch bytes with ⟨_ | rest, kept⟩
  · rw [← tag_] at found
    exact (feed_think_none found).2
  · rw [← tag_] at found
    exact feed_think_some reads found ok

theorem hear_thought (reads : c.payload = m.payload) (tag : c.thinkClose = some close)
    {h next : Heard V σ κ} {text bytes : Bytes} (before : Thought m close text h)
    (settled : Settled h) (heard : hear c h bytes = some next) :
    Thought m close (text ++ bytes) next ∧ Settled next ∧ next.opened = h.opened := by
  unfold Thought at before ⊢
  rw [after_close_append]
  rcases found : afterClose close 0 text with ⟨_ | rest, kept⟩
  · rw [found] at before
    rcases before with ⟨phase, count, taken, begun⟩
    rcases hear_some heard with ⟨ok, rfl⟩
    have unseen : tagSeen c h.gen bytes = none := by simp [tagSeen, phase]
    unfold constraintFeed at ok ⊢
    unfold takes Settled
    have tag_ : c.thinkClose.getD [] = close := by rw [tag]; rfl
    simp only [phase, unseen, Option.isSome_none, Bool.or_false, tag_] at ok ⊢
    have spec := feed_think_thought reads tag ok
    rw [count] at spec ⊢
    rcases again : afterClose close kept bytes with ⟨_ | rest, kept'⟩
    · rw [again] at spec
      rw [spec]
      exact ⟨⟨phase, rfl, taken, begun⟩, settled, trivial⟩
    · rw [again] at spec
      rcases spec with ⟨v, fed, spec⟩
      have frame := cdoc_put_frame { closed c h.gen with pv := v } rest
      rw [spec, frame.1, frame.2.1, frame.2.2.1, frame.2.2.2.1, frame.2.2.2.2]
      exact ⟨⟨rfl, rfl, rfl, fed⟩, settled, trivial⟩
  · rw [found] at before
    rcases before with ⟨phase, count, taken, fed⟩
    rcases hear_output reads phase heard with
      ⟨more, taken', opened, phase', possible, matched, count'⟩
    refine ⟨⟨phase', count'.trans count, by rw [taken', taken], ?_⟩, ?_, opened⟩
    · rw [Machine.feed_append, fed, Option.bind_some, more]
    · exact ⟨possible.trans settled.1, matched.trans settled.2⟩

/-! ## Tokens of the probe phase -/

/-- A byte that begins no payload. -/
def Machine.refuses (m : Machine V) (x : UInt8) : Bool := (m.round m.init x).isNone

theorem Machine.feed_refused {x : UInt8} (refused : m.refuses x = true) (s : Bytes) :
    m.feed m.init (x :: s) = none := by
  rw [Machine.feed_cons, Option.isNone_iff_eq_none.mp refused]
  rfl

/-- What the text may have begun of the opening tag is a payload as a whole, or each of
its bytes begins none. -/
def Steady (m : Machine V) (open_ : Bytes) : Prop :=
  ∀ a kept, probeScan open_ 0 a = (none, true, kept) →
    (m.feed m.init a).isSome = true ∨ ∀ x ∈ a, m.refuses x = true

/-- Behind a text that began in the probe phase and has not completed the opening tag. -/
structure Probing (m : Machine V) (open_ text : Bytes) (possible : Bool) (kept : Nat)
    (h : Heard V σ κ) : Prop where
  unopened : h.opened = false
  closing : h.gen.closeMatch = 0
  flag : h.gen.tagPossible = possible
  matched : h.gen.tagMatch = if possible then kept else 0
  phase : h.gen.phase = if possible then .probe else .output
  fed : m.feed m.init h.taken = some h.gen.pv
  skipped : ∃ s, text = s ++ h.taken ∧ (∀ x ∈ s, m.refuses x = true) ∧
    ∃ before, probeScan open_ 0 s = (none, true, before)
  whole : possible = false → h.taken ≠ []

/-- Behind a text that began in the probe phase. -/
def Probed (m : Machine V) (open_ close text : Bytes) (h : Heard V σ κ) : Prop :=
  match probeScan open_ 0 text with
  | (some rest, _) => h.opened = true ∧ Settled h ∧ Thought m close rest h
  | (none, possible, kept) => Probing m open_ text possible kept h

theorem held_frame (c : Config V σ κ Logits) (g : Gen V σ κ) (bytes : Bytes) :
    (held c g bytes).closeMatch = g.closeMatch ∧
      (held c g bytes).pv = (c.payload.feed g.pv bytes).getD g.pv := by
  unfold held
  cases c.payload.feed g.pv bytes with
  | none => exact ⟨rfl, rfl⟩
  | some v =>
      have frame := cdoc_put_frame { g with pv := v } bytes
      exact ⟨frame.2.2.2.1, frame.2.2.2.2⟩

/-- What a token of the probe phase does that completes no tag. -/
theorem hear_probe (reads : c.payload = m.payload) (tag : c.thinkOpen = some open_)
    {h next : Heard V σ κ} {bytes : Bytes} (phase : h.gen.phase = .probe)
    (flag : h.gen.tagPossible = true) {possible : Bool} {kept : Nat}
    (scan : probeScan open_ h.gen.tagMatch bytes = (none, possible, kept))
    (heard : hear c h bytes = some next) :
    next.opened = h.opened ∧ next.gen.closeMatch = h.gen.closeMatch ∧
      next.gen.tagPossible = possible ∧ next.gen.tagMatch = (if possible then kept else 0) ∧
        next.gen.phase = (if possible then .probe else .output) ∧
          match m.feed h.gen.pv bytes with
          | some v => next.taken = h.taken ++ bytes ∧ next.gen.pv = v
          | none => possible = true ∧ next.taken = h.taken ∧ next.gen.pv = h.gen.pv := by
  have scan' : probed c h.gen bytes = (none, possible, kept) := by
    unfold probed
    rw [tag, if_pos flag]
    exact scan
  have fed_same : c.payload.feed h.gen.pv bytes = m.feed h.gen.pv bytes := by
    rw [reads]
    rfl
  rcases hear_some heard with ⟨ok, rfl⟩
  have unseen : tagSeen c h.gen bytes = none := by rw [tag_seen_probed phase, scan']
  unfold constraintFeed at ok ⊢
  unfold takes
  simp only [phase, unseen, Option.isSome_none, Bool.or_false] at ok ⊢
  have spec := feed_probe_none scan'
  rw [spec.1, fed_same] at ok
  have gen := spec.2 (by rw [spec.1, fed_same]; exact ok)
  have frame := held_frame c h.gen bytes
  rw [fed_same] at frame
  rw [gen, fed_same]
  refine ⟨trivial, frame.1, rfl, rfl, by rw [phase], ?_⟩
  cases fed : m.feed h.gen.pv bytes with
  | none =>
      rw [fed] at ok frame
      exact ⟨by simpa using ok, rfl, frame.2⟩
  | some v =>
      rw [fed] at frame
      exact ⟨rfl, frame.2⟩

/-- A token that completes the opening tag. -/
theorem hear_tag (reads : c.payload = m.payload) (tag : c.thinkOpen = some open_)
    (tag' : c.thinkClose = some close) {h next : Heard V σ κ} {bytes rest : Bytes}
    (phase : h.gen.phase = .probe) (flag : h.gen.tagPossible = true) {possible : Bool}
    {kept : Nat} (scan : probeScan open_ h.gen.tagMatch bytes = (some rest, possible, kept))
    (heard : hear c h bytes = some next) :
    next.opened = true ∧ Settled next ∧ Thought m close rest next := by
  have scan' : probed c h.gen bytes = (some rest, possible, kept) := by
    unfold probed
    rw [tag, if_pos flag]
    exact scan
  have tag_ : c.thinkClose.getD [] = close := by rw [tag']; rfl
  rcases hear_some heard with ⟨ok, rfl⟩
  have seen : tagSeen c h.gen bytes = some rest := by rw [tag_seen_probed phase, scan']
  have spec := feed_probe_some scan'
  unfold constraintFeed at ok ⊢
  unfold takes Settled Thought
  simp only [phase, seen, Option.isSome_some, Bool.or_true, tag_] at ok ⊢
  rw [spec.1] at ok
  rw [spec.2]
  have begun : (thinking c h.gen).pv = m.init := by
    show c.payload.init = m.init
    rw [reads]
    rfl
  have thought := feed_think_thought reads tag' ok
  have start : (thinking c h.gen).closeMatch = 0 := rfl
  rw [start] at thought
  rcases found : afterClose close 0 rest with ⟨_ | later, count⟩
  · rw [found] at thought
    rw [thought]
    exact ⟨trivial, ⟨rfl, rfl⟩, rfl, rfl, rfl, begun⟩
  · rw [found] at thought
    rcases thought with ⟨v, fed, spec⟩
    have frame := cdoc_put_frame { closed c (thinking c h.gen) with pv := v } later
    rw [spec, frame.1, frame.2.1, frame.2.2.1, frame.2.2.2.1, frame.2.2.2.2]
    exact ⟨trivial, ⟨rfl, rfl⟩, rfl, rfl, rfl, fed⟩

/-- A text that is still possible, and how the payload reading stands under `Steady`. -/
theorem Probing.reading (steady : Steady m open_) {text : Bytes} {kept : Nat} {h : Heard V σ κ}
    (probing : Probing m open_ text true kept h)
    (scan : probeScan open_ 0 text = (none, true, kept)) :
    (h.taken = text ∧ m.feed m.init text = some h.gen.pv) ∨
      ((∀ x ∈ text, m.refuses x = true) ∧ h.taken = [] ∧ h.gen.pv = m.init) := by
  rcases probing.skipped with ⟨s, spelled, refused, _⟩
  have fed := probing.fed
  rcases steady text kept scan with whole | nothing
  · cases s with
    | nil =>
        rw [List.nil_append] at spelled
        left
        rw [spelled]
        exact ⟨rfl, fed⟩
    | cons x s =>
        have gone := m.feed_refused (refused x List.mem_cons_self) (s ++ h.taken)
        rw [spelled, List.cons_append, gone] at whole
        cases whole
  · right
    cases taken : h.taken with
    | nil =>
        rw [taken] at fed
        exact ⟨nothing, rfl, (Option.some.inj fed).symm⟩
    | cons x rest =>
        have inside : x ∈ text := by
          rw [spelled, taken]
          simp
        rw [taken, m.feed_refused (nothing x inside)] at fed
        cases fed

theorem hear_probed (steady : Steady m open_) (reads : c.payload = m.payload)
    (tag : c.thinkOpen = some open_) (tag' : c.thinkClose = some close)
    {h next : Heard V σ κ} {text bytes : Bytes} (before : Probed m open_ close text h)
    (heard : hear c h bytes = some next) : Probed m open_ close (text ++ bytes) next := by
  unfold Probed at before ⊢
  have joined := probe_scan_append open_ 0 text bytes
  rcases scan : probeScan open_ 0 text with ⟨_ | rest, possible, kept⟩
  · rw [scan] at before joined
    cases possible with
    | false =>
        -- the payload has begun: the token goes behind what it has taken
        rw [joined]
        have phase : h.gen.phase = .output := before.phase
        rcases hear_output reads phase heard with
          ⟨more, taken, opened, phase', flag, matched, count⟩
        rcases before.skipped with ⟨s, spelled, refused, early⟩
        exact
          { unopened := opened.trans before.unopened
            closing := count.trans before.closing
            flag := flag.trans before.flag
            matched := matched.trans before.matched
            phase := phase'
            fed := by rw [taken, Machine.feed_append, before.fed, Option.bind_some, more]
            skipped := ⟨s, by rw [taken, spelled, List.append_assoc], refused, early⟩
            whole := by
              intro _ empty
              rw [taken] at empty
              exact before.whole rfl (List.append_eq_nil_iff.mp empty).1 }
    | true =>
        have phase : h.gen.phase = .probe := before.phase
        have matched : h.gen.tagMatch = kept := before.matched
        dsimp only at joined
        rw [joined]
        rcases again : probeScan open_ kept bytes with ⟨_ | rest, possible, kept'⟩
        · rw [again] at joined
          rw [← matched] at again
          rcases hear_probe reads tag phase before.flag again heard with
            ⟨opened, count, flag, matched', phase', fed⟩
          have reading := before.reading steady scan
          refine
            { unopened := opened.trans before.unopened
              closing := count.trans before.closing
              flag := flag, matched := matched', phase := phase', fed := ?_, skipped := ?_
              whole := ?_ }
          · cases here : m.feed h.gen.pv bytes with
            | none =>
                rw [here] at fed
                rw [fed.2.1, fed.2.2]
                exact before.fed
            | some v =>
                rw [here] at fed
                rw [fed.1, fed.2, Machine.feed_append, before.fed, Option.bind_some, here]
          · cases here : m.feed h.gen.pv bytes with
            | none =>
                rw [here] at fed
                rcases fed with ⟨rfl, taken, _⟩
                rcases steady (text ++ bytes) kept' joined with whole | nothing
                · rcases reading with ⟨taken', fed'⟩ | ⟨refused, taken', begun⟩
                  · rw [Machine.feed_append, fed', Option.bind_some, here] at whole
                    cases whole
                  · cases text with
                    | nil =>
                        rw [List.nil_append, ← begun, here] at whole
                        cases whole
                    | cons x text =>
                        rw [List.cons_append, m.feed_refused (refused x List.mem_cons_self)] at whole
                        cases whole
                · rcases before.skipped with ⟨s, spelled, refused, _⟩
                  cases taken'' : h.taken with
                  | nil => exact ⟨text ++ bytes, by rw [taken, taken'', List.append_nil], nothing, kept', joined⟩
                  | cons x rest =>
                      have inside : x ∈ text ++ bytes := by
                        rw [spelled, taken'']
                        simp
                      have fed' := before.fed
                      rw [taken'', m.feed_refused (nothing x inside)] at fed'
                      cases fed'
            | some v =>
                rw [here] at fed
                rcases before.skipped with ⟨s, spelled, refused, early⟩
                exact ⟨s, by rw [fed.1, ← List.append_assoc, ← spelled], refused, early⟩
          · rintro rfl
            have some_ : bytes ≠ [] := by
              rintro rfl
              cases again
            cases here : m.feed h.gen.pv bytes with
            | none =>
                rw [here] at fed
                cases fed.1
            | some v =>
                rw [here] at fed
                rw [fed.1]
                intro empty
                exact some_ (List.append_eq_nil_iff.mp empty).2
        · rw [← matched] at again
          exact hear_tag reads tag tag' phase before.flag again heard
  · rw [scan] at before joined
    rw [joined]
    rcases before with ⟨opened, settled, thought⟩
    have later := hear_thought reads tag' thought settled heard
    exact ⟨later.2.2.trans opened, later.2.1, later.1⟩

/-! ## Runs -/

/-- The prompt has opened the thinking block. -/
structure ThinkStart (m : Machine V) (h : Heard V σ κ) : Prop where
  phase : h.gen.phase = .think
  closing : h.gen.closeMatch = 0
  settled : Settled h
  begun : h.gen.pv = m.init
  nothing : h.taken = []

/-- The engine waits to see whether the model thinks. -/
structure ProbeStart (m : Machine V) (h : Heard V σ κ) : Prop where
  phase : h.gen.phase = .probe
  closing : h.gen.closeMatch = 0
  flag : h.gen.tagPossible = true
  matched : h.gen.tagMatch = 0
  begun : h.gen.pv = m.init
  nothing : h.taken = []
  unopened : h.opened = false

/-- A request of a thinking model begins in the probe phase. -/
theorem gen_reset_starts (reads : c.payload = m.payload) (tag : c.thinkOpen = some open_)
    (tag' : c.thinkClose = some close) (prelude_ : c.constraintIncludesPrelude = false)
    (g : Gen V σ κ) (accepted : List Nat) :
    ProbeStart m { gen := genReset c g accepted, taken := [], opened := false } := by
  have probes : (!c.constraintIncludesPrelude && c.thinkOpen.isSome && c.thinkClose.isSome) = true := by
    rw [prelude_, tag, tag']
    rfl
  have begun : c.payload.init = m.init := by
    rw [reads]
    rfl
  unfold genReset constraintReset
  exact ⟨by simp [cdocRelease, probes], rfl, probes, rfl, begun, rfl, rfl⟩

/-- What each token keeps holds behind all of them. -/
theorem hear_all_kept {holds : Bytes → Heard V σ κ → Prop}
    (kept : ∀ text bytes h next, holds text h → hear c h bytes = some next →
      holds (text ++ bytes) next)
    {tokens : List Bytes} {text : Bytes} {h next : Heard V σ κ} (before : holds text h)
    (heard : hearAll c h tokens = some next) : holds (text ++ tokens.flatten) next := by
  induction tokens generalizing text h with
  | nil =>
      cases heard
      simpa using before
  | cons bytes tokens induction =>
      rw [hear_all_cons] at heard
      rcases Option.bind_eq_some_iff.mp heard with ⟨middle, here, rest⟩
      rw [List.flatten_cons, ← List.append_assoc]
      exact induction (kept text bytes h middle before here) rest

theorem think_run (reads : c.payload = m.payload) (tag : c.thinkClose = some close)
    {start h : Heard V σ κ} {tokens : List Bytes} (starts : ThinkStart m start)
    (heard : hearAll c start tokens = some h) :
    Thought m close tokens.flatten h ∧ Settled h ∧ h.opened = start.opened := by
  have begins : Thought m close [] start ∧ Settled start ∧ start.opened = start.opened :=
    ⟨⟨starts.phase, starts.closing, starts.nothing, starts.begun⟩, starts.settled, rfl⟩
  have kept : ∀ text bytes (h next : Heard V σ κ),
      Thought m close text h ∧ Settled h ∧ h.opened = start.opened → hear c h bytes = some next →
        Thought m close (text ++ bytes) next ∧ Settled next ∧ next.opened = start.opened := by
    rintro text bytes h next ⟨thought, settled, opened⟩ here
    have later := hear_thought reads tag thought settled here
    exact ⟨later.1, later.2.1, later.2.2.trans opened⟩
  exact hear_all_kept kept begins heard

theorem probe_run (steady : Steady m open_) (reads : c.payload = m.payload)
    (tag : c.thinkOpen = some open_) (tag' : c.thinkClose = some close)
    {start h : Heard V σ κ} {tokens : List Bytes} (starts : ProbeStart m start)
    (heard : hearAll c start tokens = some h) : Probed m open_ close tokens.flatten h := by
  have begins : Probed m open_ close [] start :=
    { unopened := starts.unopened
      closing := starts.closing
      flag := starts.flag
      matched := starts.matched
      phase := starts.phase
      fed := by
        rw [starts.nothing, starts.begun]
        rfl
      skipped := ⟨[], by rw [starts.nothing]; rfl, by simp, 0, rfl⟩
      whole := fun impossible => by cases impossible }
  exact hear_all_kept (fun text bytes h next before here =>
    hear_probed steady reads tag tag' before here) begins heard

/-- A text that has left the thinking block, or not, leaves one state behind. -/
theorem Thought.same {text : Bytes} {h h' : Heard V σ κ} (one : Thought m close text h)
    (settled : Settled h) (two : Thought m close text h') (settled' : Settled h') :
    h.taken = h'.taken ∧ SameFace h.gen h'.gen := by
  unfold Thought at one two
  have flag := settled.1.trans settled'.1.symm
  have matched := settled.2.trans settled'.2.symm
  rcases found : afterClose close 0 text with ⟨_ | rest, kept⟩
  · rw [found] at one two
    rcases one with ⟨phase, count, taken, begun⟩
    rcases two with ⟨phase', count', taken', begun'⟩
    exact ⟨taken.trans taken'.symm, phase.trans phase'.symm, flag, matched,
      count.trans count'.symm, begun.trans begun'.symm⟩
  · rw [found] at one two
    rcases one with ⟨phase, count, taken, fed⟩
    rcases two with ⟨phase', count', taken', fed'⟩
    rw [fed] at fed'
    exact ⟨taken.trans taken'.symm, phase.trans phase'.symm, flag, matched,
      count.trans count'.symm, Option.some.inj fed'⟩

/-- The first byte taken begins a payload. -/
theorem Probing.first_kept {text : Bytes} {possible : Bool} {kept : Nat} {h : Heard V σ κ}
    (probing : Probing m open_ text possible kept h) {x : UInt8} {rest : Bytes}
    (taken : h.taken = x :: rest) : m.refuses x = false := by
  have fed := probing.fed
  by_contra refused
  rw [taken, m.feed_refused (by simpa using refused)] at fed
  cases fed

/-- The bytes passed over are all refused and the first one taken is not. -/
theorem Probing.taken_eq {text : Bytes} {possible : Bool} {kept : Nat} {h : Heard V σ κ}
    (probing : Probing m open_ text possible kept h) : h.taken = text.dropWhile m.refuses := by
  rcases probing.skipped with ⟨s, spelled, refused, _⟩
  have front : s.dropWhile m.refuses = [] := List.dropWhile_eq_nil_iff.mpr refused
  rw [spelled, List.dropWhile_append, front, List.isEmpty_nil, if_pos rfl]
  cases taken : h.taken with
  | nil => rfl
  | cons x rest => rw [List.dropWhile_cons_of_neg (by simp [probing.first_kept taken])]

theorem Probed.same {text : Bytes} {h h' : Heard V σ κ} (one : Probed m open_ close text h)
    (two : Probed m open_ close text h') : h.taken = h'.taken ∧ SameFace h.gen h'.gen := by
  unfold Probed at one two
  rcases scan : probeScan open_ 0 text with ⟨_ | rest, possible, kept⟩
  · rw [scan] at one two
    have taken : h.taken = h'.taken := one.taken_eq.trans two.taken_eq.symm
    have fed := one.fed
    rw [taken, two.fed] at fed
    exact ⟨taken, one.phase.trans two.phase.symm, one.flag.trans two.flag.symm,
      one.matched.trans two.matched.symm, one.closing.trans two.closing.symm,
      (Option.some.inj fed).symm⟩
  · rw [scan] at one two
    exact one.2.2.same one.2.1 two.2.2 two.2.1

theorem probed_opened {text : Bytes} {h : Heard V σ κ} (probed : Probed m open_ close text h) :
    h.opened = (probeScan open_ 0 text).1.isSome := by
  unfold Probed at probed
  rcases scan : probeScan open_ 0 text with ⟨_ | rest, possible, kept⟩
  · rw [scan] at probed
    exact probed.unopened
  · rw [scan] at probed
    exact probed.1

/-! ## The boundary -/

/-- The payload begins behind the first closing tag, a thinking block is what begins with
the opening tag, and only the text counts, not its cuts. A cut into tokens has no empty
token. -/
structure Boundary (c : Config V σ κ Logits) (m : Machine V) (open_ close : Bytes) : Prop where
  closes : ∀ (start h : Heard V σ κ) (tokens : List Bytes), [] ∉ tokens → ThinkStart m start →
    hearAll c start tokens = some h →
      (∃ index, First close tokens.flatten index ∧ h.gen.phase = .output ∧
        h.taken = tokens.flatten.drop (index + close.length)) ∨
      ((∀ index, ¬close <+: tokens.flatten.drop index) ∧ h.gen.phase = .think ∧ h.taken = [])
  opens : ∀ (start h : Heard V σ κ) (tokens : List Bytes), [] ∉ tokens → ProbeStart m start →
    hearAll c start tokens = some h →
      (h.opened = true ↔ ∃ w, (∀ x ∈ w, isWs x = true) ∧ w ++ open_ <+: tokens.flatten)
  uncut : ∀ (start h h' : Heard V σ κ) (tokens others : List Bytes), [] ∉ tokens → [] ∉ others →
    ThinkStart m start ∨ ProbeStart m start → tokens.flatten = others.flatten →
      hearAll c start tokens = some h → hearAll c start others = some h' →
        h.taken = h'.taken ∧ h.gen.pv = h'.gen.pv ∧
          ∀ next, (hear c h next).isSome = (hear c h' next).isSome

/-- A blank that begins no payload is passed over when the payload comes. -/
def Machine.leaves (m : Machine V) (x : UInt8) : Bool := isWs x && m.refuses x

/-- The tag does not begin with a blank; or, where the scan would pass over its first byte,
no payload begins with the tag. -/
def Opens (m : Machine V) (open_ : Bytes) : Prop :=
  (∀ x ∈ open_.head?, isWs x = false) ∨
    (∃ y ∈ open_, isWs y = false) ∧
      ∀ w, (∀ x ∈ w, isWs x = true) → m.feed m.init ((w ++ open_).dropWhile m.leaves) = none

theorem think_closes {text : Bytes} {h : Heard V σ κ} (some_ : close ≠ [])
    (thought : Thought m close text h) :
    (∃ index, First close text index ∧ h.gen.phase = .output ∧
        h.taken = text.drop (index + close.length)) ∨
      ((∀ index, ¬close <+: text.drop index) ∧ h.gen.phase = .think ∧ h.taken = []) := by
  have long : 0 < close.length := List.length_pos_iff.mpr some_
  have unseen : ∀ shorter, shorter <+: ([] : Bytes) → ¬close <:+ shorter := by
    intro shorter front ends
    rw [List.prefix_nil.mp front] at ends
    exact some_ (List.suffix_nil.mp ends)
  have spec := @after_close_spec close [] text 0 (longest_nil close) long unseen
  unfold Thought at thought
  rcases found : afterClose close 0 text with ⟨_ | rest, kept⟩
  · rw [found] at spec thought
    exact Or.inr ⟨spec.2.2, thought.1, thought.2.2.1⟩
  · rw [found] at spec thought
    rcases spec with ⟨front, spelled, first, size⟩
    rw [List.nil_append] at first size
    left
    refine ⟨front.length - close.length, first, thought.1, ?_⟩
    have place : front.length - close.length + close.length = front.length := by omega
    rw [thought.2.2.1, place, spelled, List.drop_left]

theorem probe_opens (opens : Opens m open_) {first : UInt8} {rest : Bytes}
    (spelled : open_ = first :: rest) {text : Bytes} {h : Heard V σ κ}
    (probed : Probed m open_ close text h) :
    h.opened = true ↔ ∃ w, (∀ x ∈ w, isWs x = true) ∧ w ++ open_ <+: text := by
  rw [probed_opened probed]
  rcases opens with dark | ⟨⟨y, inside, dark⟩, unread⟩
  · have dark := dark first (by rw [spelled]; rfl)
    exact probe_scan_found_iff spelled dark text
  · by_cases blank : isWs first = true
    · have scan := probe_scan_blank_tag spelled blank text
      rw [scan]
      simp only [Option.isSome_none, Bool.false_eq_true, false_iff, not_exists, not_and]
      rintro w blanks ⟨behind, whole⟩
      -- a text with the tag in front has been read as a payload
      unfold Probed at probed
      rw [scan] at probed
      have mixed : text.all isWs = false := by
        rw [List.all_eq_false]
        refine ⟨y, ?_, by simpa using dark⟩
        rw [← whole]
        simp [inside]
      rw [mixed] at probed
      rcases probed.skipped with ⟨s, cut, refused, before, scan'⟩
      have scan_blanks : ∀ x ∈ s, isWs x = true := by
        rw [probe_scan_blank_tag spelled blank] at scan'
        exact List.all_eq_true.mp (Prod.mk.inj (Prod.mk.inj scan').2).1
      have blanks' : ∀ x ∈ s, m.leaves x = true := by
        intro x member
        have light := scan_blanks x member
        simp [Machine.leaves, light, refused x member]
      have front : text.dropWhile m.leaves = h.taken := by
        have gone : s.dropWhile m.leaves = [] := List.dropWhile_eq_nil_iff.mpr blanks'
        rw [cut, List.dropWhile_append, gone, List.isEmpty_nil, if_pos rfl]
        cases taken : h.taken with
        | nil => rfl
        | cons x rest =>
            rw [List.dropWhile_cons_of_neg]
            simp [Machine.leaves, probed.first_kept taken]
      have early : ((w ++ open_).dropWhile m.leaves).isEmpty = false := by
        rw [List.isEmpty_eq_false_iff]
        intro gone
        have left_ := List.dropWhile_eq_nil_iff.mp gone y (by simp [inside])
        simp [Machine.leaves, dark] at left_
      have fed := probed.fed
      rw [← front, ← whole, List.dropWhile_append, early, if_neg (by simp), Machine.feed_append,
        unread w blanks] at fed
      cases fed
    · exact probe_scan_found_iff spelled (by simpa using blank) text

theorem boundary_of (reads : c.payload = m.payload) (tag : c.thinkOpen = some open_)
    (tag' : c.thinkClose = some close) (some_ : open_ ≠ []) (some_' : close ≠ [])
    (steady : Steady m open_) (opens : Opens m open_) : Boundary c m open_ close where
  closes := by
    intro start h tokens _ starts heard
    exact think_closes some_' (think_run reads tag' starts heard).1
  opens := by
    intro start h tokens _ starts heard
    rcases List.exists_cons_of_ne_nil some_ with ⟨first, rest, spelled⟩
    exact probe_opens opens spelled (probe_run steady reads tag tag' starts heard)
  uncut := by
    intro start h h' tokens others _ _ starts same heard heard'
    have one : h.taken = h'.taken ∧ SameFace h.gen h'.gen := by
      rcases starts with think | probe
      · have here := think_run reads tag' think heard
        have there := think_run reads tag' think heard'
        rw [← same] at there
        exact here.1.same here.2.1 there.1 there.2.1
      · have here := probe_run steady reads tag tag' probe heard
        have there := probe_run steady reads tag tag' probe heard'
        rw [← same] at there
        exact here.same there
    refine ⟨one.1, one.2.pv, ?_⟩
    intro next
    rw [hear_accepts, hear_accepts]
    exact one.2.accepts next

/-! ## Cuts that differ -/

/-- A token of the probe phase that completes no tag is accepted if either reading goes
on. -/
theorem hear_probe_accepts (reads : c.payload = m.payload) (tag : c.thinkOpen = some open_)
    {h : Heard V σ κ} {bytes : Bytes} (phase : h.gen.phase = .probe)
    (flag : h.gen.tagPossible = true) {possible : Bool} {kept : Nat}
    (scan : probeScan open_ h.gen.tagMatch bytes = (none, possible, kept))
    (either : (m.feed h.gen.pv bytes).isSome = true ∨ possible = true) :
    ∃ next, hear c h bytes = some next := by
  have scan' : probed c h.gen bytes = (none, possible, kept) := by
    unfold probed
    rw [tag, if_pos flag]
    exact scan
  have fed_same : c.payload.feed h.gen.pv bytes = m.feed h.gen.pv bytes := by
    rw [reads]
    rfl
  rw [← Option.isSome_iff_exists, hear_accepts]
  unfold constraintFeed
  rw [phase]
  show (feedProbe c h.gen bytes).ok = true
  rw [(feed_probe_none scan').1, fed_same, Bool.or_eq_true]
  exact either

/-- Fed a byte at a time, a text that may begin the tag leaves something taken as soon as
one of its bytes begins a payload. -/
theorem letters_taken (reads : c.payload = m.payload) (tag : c.thinkOpen = some open_)
    (text : Bytes) {h : Heard V σ κ} (phase : h.gen.phase = .probe)
    (flag : h.gen.tagPossible = true) {kept : Nat}
    (scan : probeScan open_ h.gen.tagMatch text = (none, true, kept)) :
    ∃ next, hearAll c h (text.map fun x => [x]) = some next ∧ h.taken <+: next.taken ∧
      (h.gen.pv = m.init → (∃ x ∈ text, m.refuses x = false) → next.taken ≠ []) := by
  induction text generalizing h with
  | nil =>
      refine ⟨h, rfl, List.prefix_rfl, ?_⟩
      rintro _ ⟨x, inside, _⟩
      cases inside
  | cons x text induction =>
      have joined := probe_scan_append open_ h.gen.tagMatch [x] text
      rw [List.singleton_append, scan] at joined
      rcases here : probeScan open_ h.gen.tagMatch [x] with ⟨_ | rest, possible, kept'⟩
      · rw [here] at joined
        cases possible with
        | false => cases joined
        | true =>
            rcases hear_probe_accepts reads tag phase flag here (Or.inr rfl) with ⟨middle, heard⟩
            rcases hear_probe reads tag phase flag here heard with
              ⟨_, _, flag', matched, phase', fed⟩
            have rest_scan : probeScan open_ middle.gen.tagMatch text = (none, true, kept) := by
              rw [matched]
              exact joined.symm
            rcases induction phase' flag' rest_scan with ⟨next, run, longer, begins⟩
            have grows : h.taken <+: middle.taken := by
              cases taken : m.feed h.gen.pv [x] with
              | none =>
                  rw [taken] at fed
                  rw [fed.2.1]
              | some v =>
                  rw [taken] at fed
                  rw [fed.1]
                  exact List.prefix_append _ _
            refine ⟨next, ?_, grows.trans longer, ?_⟩
            · rw [List.map_cons, hear_all_cons, heard]
              exact run
            · rintro begun ⟨y, inside, kept_⟩
              cases first : m.refuses x with
              | true =>
                  have refused : m.feed h.gen.pv [x] = none := by
                    rw [begun]
                    exact m.feed_refused first []
                  rw [refused] at fed
                  apply begins (fed.2.2.trans begun)
                  rcases List.mem_cons.mp inside with rfl | later
                  · rw [first] at kept_
                    cases kept_
                  · exact ⟨y, later, kept_⟩
              | false =>
                  have taken_ : (m.round m.init x).isSome = true := by
                    simpa [Machine.refuses] using first
                  rcases Option.isSome_iff_exists.mp taken_ with ⟨v, round⟩
                  have taken : m.feed h.gen.pv [x] = some v := by
                    rw [begun, Machine.feed_cons, round]
                    rfl
                  rw [taken] at fed
                  intro empty
                  rw [empty, List.prefix_nil, fed.1] at longer
                  simp at longer
      · rw [here] at joined
        cases joined

theorem heard_at_starts (smp : σ) (cbState : κ) :
    ProbeStart m (heardAt smp cbState .probe m.init : Heard V σ κ) :=
  ⟨rfl, rfl, rfl, rfl, rfl, rfl, rfl⟩

theorem boundary_steady [Inhabited σ] [Inhabited κ] (reads : c.payload = m.payload)
    (tag : c.thinkOpen = some open_) (boundary : Boundary c m open_ close) : Steady m open_ := by
  intro a kept scan
  by_contra neither
  push Not at neither
  rcases neither with ⟨unread, x, inside, begins⟩
  let start : Heard V σ κ := heardAt default default .probe m.init
  have starts : ProbeStart m start := heard_at_starts default default
  have some_ : a ≠ [] := List.ne_nil_of_mem inside
  rcases hear_probe_accepts reads tag starts.phase starts.flag scan (Or.inr rfl) with
    ⟨whole, heard⟩
  rcases letters_taken reads tag a starts.phase starts.flag scan with ⟨next, run, _, taken⟩
  have none_ : m.feed start.gen.pv a = none := by
    show m.feed m.init a = none
    simpa using unread
  have fed := (hear_probe reads tag starts.phase starts.flag scan heard).2.2.2.2.2
  rw [none_] at fed
  have letters : (a.map fun x => [x]).flatten = a := by
    rw [← List.flatMap_def, List.flatMap_singleton']
  have same := boundary.uncut start whole next [a] (a.map fun x => [x]) (by simpa using some_.symm)
    (by simp) (Or.inr starts) (by simp [letters]) (by simp [hearAll, heard]) run
  apply taken rfl ⟨x, inside, by simpa using begins⟩
  rw [← same.1, fed.2.1]
  rfl

theorem boundary_opens [Inhabited σ] [Inhabited κ] (reads : c.payload = m.payload)
    (tag : c.thinkOpen = some open_) (some_ : open_ ≠ [])
    (boundary : Boundary c m open_ close) : Opens m open_ := by
  rcases List.exists_cons_of_ne_nil some_ with ⟨first, rest, spelled⟩
  by_cases blank : isWs first = true
  · let start : Heard V σ κ := heardAt default default .probe m.init
    have starts : ProbeStart m start := heard_at_starts default default
    have scan : ∀ b, probeScan open_ 0 b = (none, b.all isWs, 0) :=
      probe_scan_blank_tag spelled blank
    -- a token that completes no tag and holds the tag behind blanks breaks the claim
    have closed_ : ∀ w, (∀ x ∈ w, isWs x = true) → ∀ (h next : Heard V σ κ) (early : List Bytes)
        (e : Bytes), hearAll c start early = some h → h.opened = false → h.gen.phase = .probe →
          h.gen.tagPossible = true → h.gen.tagMatch = 0 → [] ∉ early ++ [e] →
            (early ++ [e]).flatten = w ++ open_ → hear c h e = some next → False := by
      intro w blanks h next early e before unopened phase flag matched full spells heard
      have run : hearAll c start (early ++ [e]) = some next := by
        unfold hearAll at before ⊢
        rw [List.foldlM_append, before]
        show (hear c h e).bind _ = _
        rw [heard]
        rfl
      have opened := (boundary.opens start next (early ++ [e]) full starts run).mpr
        ⟨w, blanks, by rw [spells]⟩
      have here := (hear_probe reads tag phase flag (by rw [matched]; exact scan e) heard).1
      rw [here, unopened] at opened
      cases opened
    have mixed : ∃ y ∈ open_, isWs y = false := by
      by_contra none_
      push Not at none_
      have blanks : ∀ x ∈ open_, isWs x = true := by
        intro x inside
        simpa using none_ x inside
      rcases hear_probe_accepts reads tag starts.phase starts.flag (scan open_)
        (Or.inr (List.all_eq_true.mpr blanks)) with ⟨next, heard⟩
      exact closed_ [] (by simp) start next [] open_ rfl rfl rfl rfl rfl (by simpa using some_.symm)
        (by simp) heard
    refine Or.inr ⟨mixed, ?_⟩
    intro w blanks
    by_contra read
    rcases mixed with ⟨y, inside, dark⟩
    have parts : (w ++ open_).takeWhile m.leaves ++ (w ++ open_).dropWhile m.leaves = w ++ open_ :=
      List.takeWhile_append_dropWhile
    have left_ : ∀ x ∈ (w ++ open_).takeWhile m.leaves, m.leaves x = true := fun x member =>
      List.mem_takeWhile_imp member
    generalize (w ++ open_).takeWhile m.leaves = d at parts left_
    generalize (w ++ open_).dropWhile m.leaves = e at parts read
    have late : y ∈ e := by
      have member : y ∈ d ++ e := by
        rw [parts]
        simp [inside]
      rcases List.mem_append.mp member with early | late
      · have light := left_ y early
        simp [Machine.leaves, dark] at light
      · exact late
    have fed : (m.feed m.init e).isSome = true := Option.isSome_iff_ne_none.mpr read
    cases d with
    | nil =>
        rcases hear_probe_accepts reads tag starts.phase starts.flag (scan e) (Or.inl fed) with
          ⟨next, heard⟩
        exact closed_ w blanks start next [] e rfl rfl rfl rfl rfl
          (by simpa using (List.ne_nil_of_mem late).symm) (by simpa using parts) heard
    | cons x d =>
        have light : ∀ z ∈ x :: d, isWs z = true := by
          intro z member
          have here := left_ z member
          simp only [Machine.leaves, Bool.and_eq_true] at here
          exact here.1
        have refused : m.refuses x = true := by
          have here := left_ x List.mem_cons_self
          simp only [Machine.leaves, Bool.and_eq_true] at here
          exact here.2
        have all : (x :: d).all isWs = true := List.all_eq_true.mpr light
        rcases hear_probe_accepts reads tag starts.phase starts.flag (scan (x :: d)) (Or.inr all)
          with ⟨middle, passed⟩
        rcases hear_probe reads tag starts.phase starts.flag (scan (x :: d)) passed with
          ⟨opened, _, flag, matched, phase, kept⟩
        rw [all] at flag matched phase
        have none_ : m.feed start.gen.pv (x :: d) = none := m.feed_refused refused d
        rw [none_] at kept
        have fed' : (m.feed middle.gen.pv e).isSome = true := by
          rw [kept.2.2]
          exact fed
        have scan' : probeScan open_ middle.gen.tagMatch e = (none, e.all isWs, 0) := by
          rw [matched]
          exact scan e
        rcases hear_probe_accepts reads tag phase flag scan' (Or.inl fed') with ⟨next, heard⟩
        exact closed_ w blanks middle next [x :: d] e (by simp [hearAll, passed]) opened phase flag
          matched (by simpa using (List.ne_nil_of_mem late).symm) (by simpa using parts) heard
  · left
    intro x head
    rw [spelled] at head
    cases head
    simpa using blank

/-- Where every blank and every byte of the tag begins no payload, no reading is left
open. -/
theorem steady_of_refused (refused : ∀ x, isWs x = true ∨ x ∈ open_ → m.refuses x = true) :
    Steady m open_ := by
  have letters : ∀ (a : Bytes) (matched kept : Nat), probeScan open_ matched a = (none, true, kept) →
      ∀ x ∈ a, isWs x = true ∨ x ∈ open_ := by
    intro a
    induction a with
    | nil => simp
    | cons b a induction =>
        intro matched kept scan x inside
        rw [probeScan] at scan
        split_ifs at scan with light other more
        · rcases List.mem_cons.mp inside with rfl | later
          · simp only [Bool.and_eq_true] at light
            exact Or.inl light.2
          · exact induction _ _ scan x later
        · cases scan
        · rcases List.mem_cons.mp inside with rfl | later
          · exact Or.inr (List.mem_of_getElem? (not_not.mp other))
          · exact induction _ _ scan x later
        · cases scan
  intro a kept scan
  right
  intro x inside
  exact refused x (letters a 0 kept scan x inside)

/-- `<think>` and `</think>`. -/
def thinkTags : Bytes × Bytes := ([60, 116, 104, 105, 110, 107, 62], [60, 47, 116, 104, 105, 110, 107, 62])

/-- For every pair of tags what the text says alone decides, exactly when what may have
begun the opening tag reads as a payload in whole or in no byte, and the opening tag can
be found where it stands. -/
theorem boundary_iff [Inhabited σ] [Inhabited κ] (reads : c.payload = m.payload)
    (tag : c.thinkOpen = some open_) (tag' : c.thinkClose = some close) (some_ : open_ ≠ [])
    (some_' : close ≠ []) :
    Boundary c m open_ close ↔ Steady m open_ ∧ Opens m open_ := by
  constructor
  · intro boundary
    exact ⟨boundary_steady reads tag boundary, boundary_opens reads tag some_ boundary⟩
  · rintro ⟨steady, opens⟩
    exact boundary_of reads tag tag' some_ some_' steady opens

/-- Under `json_mode` a payload begins with a brace, which stands in no such tag. -/
theorem json_think_boundary :
    Boundary (bareRequest .json jsonMachine.payload (some thinkTags)) jsonMachine thinkTags.1
      thinkTags.2 := by
  have refused : ∀ x, isWs x = true ∨ x ∈ thinkTags.1 → jsonMachine.refuses x = true := by
    intro x kind
    have other : x ≠ Json.lbrace := by
      rintro rfl
      revert kind
      decide
    show (Json.feedRound Json.jsonvInit x).isNone = true
    unfold Json.feedRound
    simp [Json.feedByte, Json.jsonvInit, other]
  apply (boundary_iff rfl rfl rfl (by decide) (by decide)).mpr
  refine ⟨steady_of_refused refused, Or.inl ?_⟩
  intro x first
  cases first
  rfl

/-- A request for `{"type":"boolean"}` to a model that thinks. -/
def boolRequest : Config Schema.Sval Unit Unit Unit :=
  bareRequest .schema (schemaMachine .bool).payload (some thinkTags)

/-- Of `<t` the validator has read a `t` when it came in two tokens, and nothing when it
came in one. -/
theorem split_tag_read_twice :
    ¬Boundary boolRequest (schemaMachine .bool) thinkTags.1 thinkTags.2 := by
  intro boundary
  let fresh : Gen Schema.Sval Unit Unit := (heardAt () () .output (schemaMachine .bool).init).gen
  have starts := gen_reset_starts (c := boolRequest) rfl rfl rfl rfl fresh []
  have same := boundary.uncut _ _ _ [[60], [116]] [[60, 116]] (by decide) (by decide) (Or.inr starts)
    rfl rfl rfl
  exact absurd same.1 (by decide)

end GridcoreRunner.Generation
