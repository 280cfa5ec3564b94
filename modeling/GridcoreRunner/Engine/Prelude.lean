import GridcoreRunner.Engine.Constraint
import GridcoreRunner.Json.Mode
import GridcoreRunner.Overlap

/-!
# The thinking prelude, token by token

A validator that reads bytes, what the two tag scans do over a whole text, and what
`constraint_feed` leaves behind a token. `Heard` carries next to an engine the bytes
of the payload that its validator has taken, and whether the opening tag was seen.
-/

namespace GridcoreRunner.Generation

set_option autoImplicit false

open GridcoreRunner.Overlap

/-! ## Validators -/

/-- A validator that takes one byte after the other, as `sval` and `jsonv` do. -/
structure Machine (V : Type*) where
  init : V
  round : V → UInt8 → Option V
  done : V → Bool
  close : V → Nat → Bytes
  wsIsContent : V → Bool
  atRawTail : V → Bool

variable {V σ κ Logits : Type*}

/-- The loop of `sval_feed` and of `jsonv_feed`. -/
def Machine.feed (m : Machine V) (v : V) (s : Bytes) : Option V := s.foldlM m.round v

def Machine.payload (m : Machine V) : Payload V :=
  { init := m.init, feed := m.feed, done := m.done, close := m.close,
    wsIsContent := m.wsIsContent, atRawTail := m.atRawTail }

/-- A round of `sval_feed`: a byte may be read a second time, and no third. -/
def svalRound (feedByte : V → UInt8 → Option (V × Bool)) (v : V) (c : UInt8) : Option V :=
  (feedByte v c).bind fun (v, again) =>
    if again then (feedByte v c).bind fun (v, again) => if again then none else some v
    else some v

/-- `json_mode`. -/
def jsonMachine : Machine Json.Jsonv :=
  { init := Json.jsonvInit, round := Json.feedRound, done := Json.Jsonv.done,
    close := Json.jsonvClose, wsIsContent := fun _ => false, atRawTail := fun _ => false }

namespace Machine

variable {m : Machine V}

theorem feed_cons (v : V) (c : UInt8) (s : Bytes) :
    m.feed v (c :: s) = (m.round v c).bind fun w => m.feed w s :=
  List.foldlM_cons

theorem feed_append (v : V) (s t : Bytes) :
    m.feed v (s ++ t) = (m.feed v s).bind fun w => m.feed w t :=
  List.foldlM_append

end Machine

/-! ## The closing tag -/

/-- `tag_advance` keeps the longest end of the text that begins the tag. -/
theorem tag_advance_longest {tag text : Bytes} {count : Nat} (longest : Longest tag text count)
    (open_ : count < tag.length) (b : UInt8) :
    Longest tag (text ++ [b]) (tagAdvance tag count b) := by
  have size : (tag.take count ++ [b]).length = count + 1 := by
    rw [List.length_append, List.length_take, List.length_singleton]
    omega
  have asks : ∀ k, k ≤ min (count + 1) tag.length →
      ((k == 0 || (tag.take count ++ [b]).drop (count + 1 - k) == tag.take k) = true ↔
        Ends tag (tag.take count ++ [b]) k) := by
    intro k bound
    rw [Bool.or_eq_true, beq_iff_eq, beq_iff_eq]
    constructor
    · rintro (rfl | same)
      · exact ends_zero _ _
      · refine ⟨by omega, ?_⟩
        rw [← same]
        exact List.drop_suffix _ _
    · rintro ⟨_, ends⟩
      right
      have dropped := List.suffix_iff_eq_drop.mp ends
      rw [size, List.length_take, Nat.min_eq_left (by omega)] at dropped
      exact dropped.symm
  have search := find_down (fun k => k == 0 ||
    (tag.take count ++ [b]).drop (count + 1 - k) == tag.take k) (min (count + 1) tag.length + 1)
  have all : ∀ k, Ends tag (tag.take count ++ [b]) k → k ≤ min (count + 1) tag.length := by
    rintro k ⟨bound, ends⟩
    have fewer := ends.length_le
    rw [size, List.length_take] at fewer
    omega
  unfold tagAdvance
  dsimp only
  split at search
  · next k found =>
      rw [found, Option.getD_some]
      constructor
      · rw [ends_remembered longest]
        exact (asks k (by omega)).mp search.2.1
      · intro other ends
        rw [ends_remembered longest] at ends
        by_contra more
        have bound := all other ends
        have here := (asks other bound).mpr ends
        have none_ := search.2.2 other (by omega) (by omega)
        rw [none_] at here
        cases here
  · next found =>
      have none_ := search 0 (by omega)
      simp at none_

/-- The text behind the first completed tag, or how much of it the text ends with. -/
def afterClose (tag : Bytes) : Nat → Bytes → Option Bytes × Nat
  | count, [] => (none, count)
  | count, b :: rest =>
      if tagAdvance tag count b = tag.length then (some rest, 0)
      else afterClose tag (tagAdvance tag count b) rest

theorem after_close_append (tag : Bytes) (count : Nat) (s t : Bytes) :
    afterClose tag count (s ++ t) =
      match afterClose tag count s with
      | (some rest, _) => (some (rest ++ t), 0)
      | (none, kept) => afterClose tag kept t := by
  induction s generalizing count with
  | nil => rfl
  | cons b s induction =>
      simp only [List.cons_append, afterClose]
      split_ifs
      · rfl
      · exact induction _

/-- Behind a text that the search has gone through, the tag is found where it first
stands, and not at all when it does not. -/
theorem after_close_spec {tag : Bytes} {seen s : Bytes} {count : Nat}
    (longest : Longest tag seen count) (open_ : count < tag.length)
    (unseen : ∀ shorter, shorter <+: seen → ¬tag <:+ shorter) :
    match afterClose tag count s with
    | (some rest, _) => ∃ front, s = front ++ rest ∧
        First tag (seen ++ s) ((seen ++ front).length - tag.length) ∧
          tag.length ≤ (seen ++ front).length
    | (none, kept) => kept < tag.length ∧ Longest tag (seen ++ s) kept ∧
        ∀ index, ¬tag <+: (seen ++ s).drop index := by
  induction s generalizing seen count with
  | nil =>
      simp only [afterClose, List.append_nil]
      exact ⟨open_, longest, absent_of_unseen unseen⟩
  | cons b s induction =>
      have next := tag_advance_longest longest open_ b
      simp only [afterClose]
      split_ifs with complete
      · have ends := (found_iff next).mp complete
        refine ⟨[b], rfl, ?_, ends.length_le⟩
        have split : seen ++ b :: s = (seen ++ [b]) ++ s := by simp
        rw [split]
        apply first_of_ends ends
        intro shorter front other
        rcases List.prefix_concat_iff.mp front with whole | before
        · exact absurd whole other
        · exact unseen shorter before
      · have fewer : tagAdvance tag count b < tag.length :=
          Nat.lt_of_le_of_ne next.1.1 complete
        have later := @induction (seen ++ [b]) _ next fewer (by
          intro shorter front ends
          rcases List.prefix_concat_iff.mp front with whole | before
          · rw [whole] at ends
            exact complete ((found_iff next).mpr ends)
          · exact unseen shorter before ends)
        have split : seen ++ b :: s = (seen ++ [b]) ++ s := by simp
        rw [split]
        split at later
        · rcases later with ⟨front, spelled, first, long⟩
          refine ⟨b :: front, by simp [spelled], ?_, ?_⟩
          · simpa using first
          · simpa using long
        · exact later

/-! ## The opening tag -/

theorem probe_scan_append (open_ : Bytes) (count : Nat) (s t : Bytes) :
    probeScan open_ count (s ++ t) =
      match probeScan open_ count s with
      | (some rest, _, _) => (some (rest ++ t), false, 0)
      | (none, true, kept) => probeScan open_ kept t
      | (none, false, kept) => (none, false, kept) := by
  induction s generalizing count with
  | nil => rfl
  | cons b s induction =>
      simp only [List.cons_append, probeScan]
      split_ifs
      · exact induction _
      · rfl
      · exact induction _
      · rfl

/-! ## Tokens -/

/-- An engine, the payload bytes its validator has taken since it was last reset, and
whether the opening tag has been seen. -/
structure Heard (V σ κ : Type*) where
  gen : Gen V σ κ
  taken : Bytes
  opened : Bool

/-- What follows the opening tag if this token completes it. -/
def tagSeen (c : Config V σ κ Logits) (g : Gen V σ κ) (bytes : Bytes) : Option Bytes :=
  if g.phase = .probe ∧ g.tagPossible = true then
    (probeScan (c.thinkOpen.getD []) g.tagMatch bytes).1
  else none

/-- The bytes taken, with this token. -/
def takes (c : Config V σ κ Logits) (h : Heard V σ κ) (bytes : Bytes) : Bytes :=
  match h.gen.phase with
  | .output => h.taken ++ bytes
  | .afterThink => h.taken ++ bytes
  | .think => (afterClose (c.thinkClose.getD []) h.gen.closeMatch bytes).1.getD h.taken
  | .probe =>
      match tagSeen c h.gen bytes with
      | some rest => (afterClose (c.thinkClose.getD []) 0 rest).1.getD []
      | none => if (c.payload.feed h.gen.pv bytes).isSome then h.taken ++ bytes else h.taken

/-- A token that `constraint_feed` accepts. -/
def hear (c : Config V σ κ Logits) (h : Heard V σ κ) (bytes : Bytes) : Option (Heard V σ κ) :=
  let fed := constraintFeed c h.gen bytes
  if fed.ok then
    some { gen := fed.gen, taken := takes c h bytes,
           opened := h.opened || (tagSeen c h.gen bytes).isSome }
  else none

def hearAll (c : Config V σ κ Logits) (h : Heard V σ κ) (tokens : List Bytes) :
    Option (Heard V σ κ) :=
  tokens.foldlM (hear c) h

theorem hear_some {c : Config V σ κ Logits} {h next : Heard V σ κ} {bytes : Bytes}
    (heard : hear c h bytes = some next) :
    (constraintFeed c h.gen bytes).ok = true ∧
      next = ⟨(constraintFeed c h.gen bytes).gen, takes c h bytes,
        h.opened || (tagSeen c h.gen bytes).isSome⟩ := by
  unfold hear at heard
  dsimp only at heard
  split_ifs at heard with ok
  exact ⟨ok, (Option.some.inj heard).symm⟩

theorem hear_all_cons (c : Config V σ κ Logits) (h : Heard V σ κ) (bytes : Bytes)
    (tokens : List Bytes) :
    hearAll c h (bytes :: tokens) = (hear c h bytes).bind fun next => hearAll c next tokens :=
  List.foldlM_cons

section

variable {c : Config V σ κ Logits} {m : Machine V} {g : Gen V σ κ} {bytes : Bytes}

theorem payload_trial_some {v w : V} (reads : c.payload = m.payload)
    (taken : payloadTrial c v bytes = some w) : m.feed v bytes = some w := by
  unfold payloadTrial at taken
  split_ifs at taken
  rw [reads] at taken
  exact taken

theorem cdoc_put_nil (g : Gen V σ κ) : cdocPut g [] = g := by
  unfold cdocPut
  simp

/-- An accepted token of the payload. -/
theorem feed_output_ok (ok : (feedOutput c g bytes).ok = true) :
    ∃ v, payloadTrial c g.pv bytes = some v ∧
      (feedOutput c g bytes).gen = cdocPut { g with pv := v } bytes := by
  unfold feedOutput at ok ⊢
  unfold constraintPayloadFeed at ok ⊢
  cases taken : payloadTrial c g.pv bytes with
  | none =>
      rw [taken] at ok
      cases ok
  | some v => exact ⟨v, rfl, rfl⟩

/-- The engine at the end of the thinking block, its payload still to come. -/
def closed (c : Config V σ κ Logits) (g : Gen V σ κ) : Gen V σ κ :=
  constraintPayloadReset c { g with phase := .output, closeMatch := 0 }

theorem feed_think_from (close whole : Bytes) (index : Nat) (rest : Bytes) :
    (∀ kept, afterClose close g.closeMatch rest = (none, kept) →
      (feedThinkFrom c close whole g index rest).ok = true ∧
        (feedThinkFrom c close whole g index rest).gen = { g with closeMatch := kept }) ∧
      ∀ later kept, afterClose close g.closeMatch rest = (some later, kept) →
        (feedThinkFrom c close whole g index rest).ok =
            (later.isEmpty || (constraintPayloadFeed c (closed c g) later).isSome) ∧
          (feedThinkFrom c close whole g index rest).gen =
            if later.isEmpty then closed c g
            else (constraintPayloadFeed c (closed c g) later).getD (closed c g) := by
  induction rest generalizing g index with
  | nil =>
      constructor
      · intro kept found
        cases found
        exact ⟨rfl, rfl⟩
      · intro later kept found
        cases found
  | cons b rest induction =>
      have inner := @induction { g with closeMatch := tagAdvance close g.closeMatch b } (index + 1)
      simp only [afterClose, feedThinkFrom]
      by_cases complete : tagAdvance close g.closeMatch b = close.length
      · rw [if_pos complete]
        simp only [complete, ne_eq, not_true_eq_false, if_false]
        constructor
        · intro kept found
          cases found
        · intro later kept found
          cases found
          have same : constraintPayloadReset c
              { { g with closeMatch := close.length } with phase := .output, closeMatch := 0 } =
                closed c g := rfl
          rw [same]
          cases empty : rest.isEmpty with
          | true => simp
          | false =>
              cases constraintPayloadFeed c (closed c g) rest <;> simp
      · rw [if_neg complete]
        simp only [ne_eq, complete, not_false_eq_true, if_true]
        exact inner

theorem feed_think_none {kept : Nat}
    (found : afterClose (c.thinkClose.getD []) g.closeMatch bytes = (none, kept)) :
    (feedThink c g bytes).ok = true ∧ (feedThink c g bytes).gen = { g with closeMatch := kept } :=
  (feed_think_from _ _ _ _).1 kept found

/-- The payload begins behind the closing tag. -/
theorem feed_think_some (reads : c.payload = m.payload) {rest : Bytes} {kept : Nat}
    (found : afterClose (c.thinkClose.getD []) g.closeMatch bytes = (some rest, kept))
    (ok : (feedThink c g bytes).ok = true) :
    ∃ v, m.feed m.init rest = some v ∧
      (feedThink c g bytes).gen = cdocPut { closed c g with pv := v } rest := by
  have spec := (feed_think_from (c := c) (c.thinkClose.getD []) bytes 0 bytes).2 rest kept found
  have begins : (closed c g).pv = m.init := by
    show c.payload.init = m.init
    rw [reads]
    rfl
  unfold feedThink at ok ⊢
  rw [spec.1] at ok
  rw [spec.2]
  cases rest with
  | nil =>
      refine ⟨m.init, rfl, ?_⟩
      rw [cdoc_put_nil, ← begins]
      rfl
  | cons b rest =>
      simp only [List.isEmpty_cons, Bool.false_or, Bool.false_eq_true, if_false] at ok ⊢
      rcases Option.isSome_iff_exists.mp ok with ⟨next, fed⟩
      rw [fed]
      rcases Option.map_eq_some_iff.mp fed with ⟨v, taken, same⟩
      rw [begins] at taken
      exact ⟨v, payload_trial_some reads taken, same.symm⟩

/-- The scan of the opening tag that a token in the probe phase goes through. -/
def probed (c : Config V σ κ Logits) (g : Gen V σ κ) (bytes : Bytes) :
    (Option Bytes) × Bool × Nat :=
  if g.tagPossible then probeScan (c.thinkOpen.getD []) g.tagMatch bytes
  else (none, false, g.tagMatch)

theorem tag_seen_probed (probe : g.phase = .probe) : tagSeen c g bytes = (probed c g bytes).1 := by
  unfold tagSeen probed
  cases possible : g.tagPossible <;> simp [probe]

/-- The engine behind the opening tag. -/
def thinking (c : Config V σ κ Logits) (g : Gen V σ κ) : Gen V σ κ :=
  constraintPayloadReset c
    { g with phase := .think, tagPossible := false, tagMatch := 0, closeMatch := 0 }

theorem feed_probe_some {rest : Bytes} {possible : Bool} {kept : Nat}
    (scan : probed c g bytes = (some rest, possible, kept)) :
    (feedProbe c g bytes).ok = (feedThink c (thinking c g) rest).ok ∧
      (feedProbe c g bytes).gen = (feedThink c (thinking c g) rest).gen := by
  unfold probed at scan
  unfold feedProbe
  simp only [scan]
  cases rest with
  | nil => exact ⟨rfl, rfl⟩
  | cons b rest => exact ⟨rfl, rfl⟩

/-- The payload reading behind a token of the probe phase: a token it cannot take is
passed over. -/
def held (c : Config V σ κ Logits) (g : Gen V σ κ) (bytes : Bytes) : Gen V σ κ :=
  match c.payload.feed g.pv bytes with
  | some v => cdocPut { g with pv := v } bytes
  | none => g

theorem cdoc_put_frame (g : Gen V σ κ) (bytes : Bytes) :
    (cdocPut g bytes).phase = g.phase ∧ (cdocPut g bytes).tagPossible = g.tagPossible ∧
      (cdocPut g bytes).tagMatch = g.tagMatch ∧ (cdocPut g bytes).closeMatch = g.closeMatch ∧
        (cdocPut g bytes).pv = g.pv := by
  unfold cdocPut
  split_ifs <;> exact ⟨rfl, rfl, rfl, rfl, rfl⟩

/-- While the opening tag is not complete, either reading is enough. -/
theorem feed_probe_none {possible : Bool} {kept : Nat}
    (scan : probed c g bytes = (none, possible, kept)) :
    (feedProbe c g bytes).ok = ((c.payload.feed g.pv bytes).isSome || possible) ∧
      ((feedProbe c g bytes).ok = true →
        (feedProbe c g bytes).gen =
          { held c g bytes with
            tagPossible := possible
            tagMatch := if possible then kept else 0
            phase := if possible then g.phase else .output }) := by
  have phase : ∀ v : V, (cdocPut { g with pv := v } bytes).phase = g.phase :=
    fun v => (cdoc_put_frame { g with pv := v } bytes).1
  unfold probed at scan
  unfold feedProbe held
  simp only [scan]
  cases fed : c.payload.feed g.pv bytes with
  | none => cases possible <;> simp
  | some v => cases possible <;> simp [phase]

end

/-! ## Requests that only constrain -/

/-- A request with nothing but a constraint and, it may be, a pair of thinking tags. -/
def bareRequest (mode : Mode) (payload : Payload V) (tags : Option (Bytes × Bytes)) :
    Config V Unit Unit Unit where
  mode := mode
  payload := payload
  thinkOpen := tags.map Prod.fst
  thinkClose := tags.map Prod.snd
  thinkEndId := none
  emitThinkPrelude := false
  constraintIncludesPrelude := false
  allowWs := false
  stopIds := []
  ignoreEos := false
  decode := fun _ => []
  isControl := fun _ => false
  raw := fun _ => none
  samplePick := fun _ _ _ => (.noCandidate, ())
  samplerAccept := fun _ _ => ()
  samplerReset := fun _ => ()
  callback := fun _ _ _ => ((), false, 0)

/-- An engine at the start of a request, before any token. -/
def heardAt (smp : σ) (cbState : κ) (phase : Phase) (pv : V) : Heard V σ κ where
  gen :=
    { smp := smp, cbState := cbState, calls := [], phase := phase, tagPossible := phase == .probe,
      tagMatch := 0, closeMatch := 0, pv := pv, cdoc := [], cdocRec := true, closing := false,
      hitStop := false, oom := false, preludeMax := 0, preludeCount := 0,
      preludeExhausted := false }
  taken := []
  opened := false

end GridcoreRunner.Generation
