import GridcoreRunner.Completion.ThinkSplit

/-!
# The stop-string filter and the delivery of content

`stop_feed` stages content in `hold` and releases what can no longer begin a stop
string. `sent` collects the bytes of the streamed deltas; an unfinished UTF-8
sequence waits in `pend` for its rest.
-/

namespace GridcoreRunner.Completion

set_option autoImplicit false

open GridcoreRunner.Generation GridcoreRunner.Text

/-- The stop strings of a request that has some; none of them is empty. -/
structure Stops where
  strs : List Bytes
  some : strs ≠ []
  nonempty : ∀ s ∈ strs, s ≠ []

/-- The part of `gen_ctx` that carries bytes. -/
structure Ctx where
  stream : Bool
  out : Bytes
  reason : Bytes
  sent : Bytes
  pend : Bytes
  sentReason : Bytes
  pendReason : Bytes
  hold : Bytes
  stopHit : Option Bytes
  stopped : Bool
  /-- What `engine_constraint_truncate` was told. -/
  shortfall : Nat
  deriving DecidableEq, Repr

def Ctx.init (stream : Bool) : Ctx :=
  { stream, out := [], reason := [], sent := [], pend := [], sentReason := [], pendReason := [],
    hold := [], stopHit := none, stopped := false, shortfall := 0 }

/-- `u8_incomplete_tail` from `back` bytes before the end. -/
def u8TailFrom (text : Bytes) : Nat → Nat → Nat
  | 0, _ => 0
  | fuel + 1, back =>
      if back ≤ text.length then
        let c := (text[text.length - back]?).getD 0
        if c &&& 0xC0 = 0x80 then u8TailFrom text fuel (back + 1)
        else
          let len := if c &&& 0xE0 = 0xC0 then 2 else if c &&& 0xF0 = 0xE0 then 3
            else if c &&& 0xF8 = 0xF0 then 4 else 0
          if len > back then back else 0
      else 0

def u8IncompleteTail (text : Bytes) : Nat := u8TailFrom text 3 1

/-- `send_text_delta` on one channel: the bytes sent so far and those waiting. -/
def sendTextDelta (sent pend bytes : Bytes) : Bytes × Bytes :=
  if pend.isEmpty && u8IncompleteTail bytes == 0 then (sent ++ bytes, pend)
  else
    let joined := pend ++ bytes
    let emit := joined.length - u8IncompleteTail joined
    (sent ++ joined.take emit, joined.drop emit)

/-- `emit_channel` of a client that is still there. -/
def emitChannel (g : Ctx) (reasoning : Bool) (bytes : Bytes) : Ctx × Bool :=
  if reasoning then
    let delta := if g.stream then sendTextDelta g.sentReason g.pendReason bytes
      else (g.sentReason, g.pendReason)
    ({ g with reason := g.reason ++ bytes, sentReason := delta.1, pendReason := delta.2 }, false)
  else
    let delta := if g.stream then sendTextDelta g.sent g.pend bytes else (g.sent, g.pend)
    ({ g with out := g.out ++ bytes, sent := delta.1, pend := delta.2 }, false)

/-- `flush_text_delta` on both channels. -/
def flushTextDelta (g : Ctx) : Ctx :=
  { g with sent := g.sent ++ g.pend, pend := [], sentReason := g.sentReason ++ g.pendReason,
           pendReason := [] }

/-- The overlap search of one stop string, from `count` bytes down. -/
def keepScan (hold stop : Bytes) (keep : Nat) : Nat → Nat
  | 0 => keep
  | count + 1 =>
      if count + 1 > keep then
        if hold.drop (hold.length - (count + 1)) = stop.take (count + 1) then count + 1
        else keepScan hold stop keep count
      else keep

/-- The bytes at the end of `hold` that could still begin a stop string. -/
def keepFor (hold : Bytes) (stops : List Bytes) : Nat :=
  stops.foldl (fun keep stop => keepScan hold stop keep (min (stop.length - 1) hold.length)) 0

/-- `stop_feed`; `closing` is `constraint_closing`. -/
def stopFeed (stops : List Bytes) (closing : Bool) (g : Ctx) (bytes : Bytes) : Ctx × Bool :=
  if closing then emitChannel g false bytes
  else
    let hold := g.hold ++ bytes
    match firstHit stops hold with
    | some (at_, stop) =>
        let g := { g with stopHit := some stop }
        let g := if at_ > 0 then (emitChannel g false (hold.take at_)).1 else g
        ({ g with hold := [], stopped := true, shortfall := hold.length - at_ }, true)
    | none =>
        let rel := hold.length - keepFor hold stops
        if rel > 0 then
          let (g, rc) := emitChannel g false (hold.take rel)
          ({ g with hold := hold.drop rel }, rc)
        else ({ g with hold }, false)

/-- `gen_emit`. -/
def genEmit (stops : List Bytes) (closing : Bool) (g : Ctx) (reasoning : Bool) (bytes : Bytes) :
    Ctx × Bool :=
  if !reasoning && !stops.isEmpty then stopFeed stops closing g bytes
  else emitChannel g reasoning bytes

/-! ## What may be released -/

theorem keep_scan_spec (hold stop : Bytes) (keep count : Nat) :
    keep ≤ keepScan hold stop keep count ∧ keepScan hold stop keep count ≤ max keep count ∧
      ∀ overlap, overlap ≤ count → hold.drop (hold.length - overlap) = stop.take overlap →
        overlap ≤ keepScan hold stop keep count := by
  induction count with
  | zero =>
      refine ⟨Nat.le_refl _, by simp [keepScan], ?_⟩
      intro overlap le _
      omega
  | succ count induction =>
      simp only [keepScan]
      split
      · split
        · exact ⟨by omega, by omega, fun overlap le _ => le⟩
        · next differs =>
          refine ⟨induction.1, by omega, ?_⟩
          intro overlap le same
          rcases Nat.lt_or_ge overlap (count + 1) with less | top
          · exact induction.2.2 overlap (by omega) same
          · obtain rfl : overlap = count + 1 := by omega
            exact absurd same differs
      · exact ⟨Nat.le_refl _, by omega, fun overlap le _ => by omega⟩

/-- The kept length bounds every overlap with a stop string. -/
theorem keep_for_bound (hold : Bytes) (stops : List Bytes) :
    keepFor hold stops ≤ hold.length ∧ ∀ stop ∈ stops, ∀ count, count < stop.length →
      count ≤ hold.length → hold.drop (hold.length - count) <+: stop →
        count ≤ keepFor hold stops := by
  have general : ∀ keep : Nat, keep ≤ hold.length →
      let kept := stops.foldl (fun keep stop =>
        keepScan hold stop keep (min (stop.length - 1) hold.length)) keep
      keep ≤ kept ∧ kept ≤ hold.length ∧ ∀ stop ∈ stops, ∀ count, count < stop.length →
        count ≤ hold.length → hold.drop (hold.length - count) <+: stop → count ≤ kept := by
    induction stops with
    | nil =>
        intro keep le
        exact ⟨Nat.le_refl _, le, by simp⟩
    | cons stop stops induction =>
        intro keep le
        have scan := keep_scan_spec hold stop keep (min (stop.length - 1) hold.length)
        have rest := induction (keepScan hold stop keep (min (stop.length - 1) hold.length))
          (by have := scan.2.1; omega)
        simp only [List.foldl_cons]
        refine ⟨scan.1.trans rest.1, rest.2.1, ?_⟩
        intro other member count short within overlaps
        rcases List.mem_cons.mp member with rfl | later
        · have same : hold.drop (hold.length - count) = other.take count := by
            have taken := List.prefix_iff_eq_take.mp overlaps
            have length : (hold.drop (hold.length - count)).length = count := by
              rw [List.length_drop]
              omega
            rwa [length] at taken
          exact (scan.2.2 count (by omega) same).trans rest.1
        · exact rest.2.2 other later count short within overlaps
  exact ⟨(general 0 (Nat.zero_le _)).2.1, (general 0 (Nat.zero_le _)).2.2⟩

/-- The filter in the middle of a turn that has shown it `seen`. -/
structure Filtering (stops : List Bytes) (g : Ctx) (seen : Bytes) : Prop where
  seen_eq : seen = g.out ++ g.hold
  absent : firstHit stops seen = none
  dead : AllDead stops g.out g.hold
  running : g.stopped = false
  noHit : g.stopHit = none

@[simp] theorem emit_content_out (g : Ctx) (bytes : Bytes) :
    (emitChannel g false bytes).1.out = g.out ++ bytes := rfl

/-- What a filter step does with the next content bytes. -/
theorem stop_feed_step {stops : List Bytes} {g : Ctx} {seen : Bytes} (h : Filtering stops g seen)
    (bytes : Bytes) :
    let fed := stopFeed stops false g bytes
    match firstHit stops (seen ++ bytes) with
    | none => fed.2 = false ∧ Filtering stops fed.1 (seen ++ bytes)
    | some (at_, stop) => fed.2 = true ∧ fed.1.stopped = true ∧ fed.1.hold = [] ∧
        fed.1.out = (seen ++ bytes).take at_ ∧ fed.1.stopHit = some stop := by
  have search := first_hit_dead (h.dead.extend bytes)
  rw [← List.append_assoc, ← h.seen_eq] at search
  have split : seen ++ bytes = g.out ++ (g.hold ++ bytes) := by
    rw [← List.append_assoc, ← h.seen_eq]
  simp only [stopFeed, Bool.false_eq_true, if_false]
  cases hit : firstHit stops (g.hold ++ bytes) with
  | some found =>
      obtain ⟨at_, stop⟩ := found
      rw [hit] at search
      simp only [search, Option.map_some]
      refine ⟨trivial, trivial, trivial, ?_, ?_⟩
      · rw [split, Nat.add_comm, List.take_length_add_append]
        split
        · rfl
        · next first =>
          obtain rfl : at_ = 0 := by omega
          simp
      · split <;> rfl
  | none =>
      rw [hit] at search
      simp only [search, Option.map_none]
      have kept := keep_for_bound (g.hold ++ bytes) stops
      have released := all_dead_of_overlap hit kept.2
      set hold := g.hold ++ bytes with hold_def
      set rel := hold.length - keepFor hold stops with rel_def
      have dead : AllDead stops (g.out ++ hold.take rel) (hold.drop rel) := by
        apply AllDead.append _ released
        rw [List.take_append_drop]
        exact h.dead.extend bytes
      have seen_eq : seen ++ bytes = g.out ++ hold.take rel ++ hold.drop rel := by
        rw [List.append_assoc, List.take_append_drop, split]
      by_cases some : rel > 0
      · rw [if_pos some]
        exact ⟨rfl, seen_eq, search, dead, h.running, h.noHit⟩
      · have none : rel = 0 := by omega
        rw [if_neg some]
        rw [none, List.take_zero, List.append_nil, List.drop_zero] at dead seen_eq
        exact ⟨rfl, seen_eq, search, dead, h.running, h.noHit⟩

theorem filtering_start (stops : List Bytes) (stream : Bool) :
    Filtering stops (Ctx.init stream) [] :=
  ⟨rfl, rfl, trivial, rfl, rfl⟩

/-- A reasoning piece does not touch the filter. -/
theorem Filtering.reasoning {stops : List Bytes} {g : Ctx} {seen : Bytes}
    (h : Filtering stops g seen) (bytes : Bytes) :
    Filtering stops (emitChannel g true bytes).1 seen :=
  ⟨h.seen_eq, h.absent, h.dead, h.running, h.noHit⟩

/-- The content shown to the filter when the first stop string is complete, or
all of it. -/
def seenAtStop (stops : List Bytes) : Bytes → List (Bool × Bytes) → Bytes
  | seen, [] => seen
  | seen, (think, bytes) :: log =>
      if think then seenAtStop stops seen log
      else if (firstHit stops (seen ++ bytes)).isSome then seen ++ bytes
      else seenAtStop stops (seen ++ bytes) log

/-- The filter over a list of emissions. The induction carries `Filtering`; the
first emission that completes a stop string ends it. -/
theorem run_filter (stops : Stops) {g : Ctx} {seen : Bytes} (h : Filtering stops.strs g seen)
    (log : List (Bool × Bytes)) :
    let fed := runUntil (genEmit stops.strs false) g log
    let shown := seenAtStop stops.strs seen log
    match firstHit stops.strs shown with
    | none => fed.2 = false ∧ shown = seen ++ contents log ∧ Filtering stops.strs fed.1 shown
    | some (at_, stop) => fed.2 = true ∧ fed.1.stopped = true ∧ fed.1.hold = [] ∧
        fed.1.out = shown.take at_ ∧ fed.1.stopHit = some stop ∧
        shown <+: seen ++ contents log := by
  have listed : stops.strs.isEmpty = false := by
    simpa [List.isEmpty_eq_false_iff] using stops.some
  induction log generalizing g seen with
  | nil =>
      simp only [runUntil, seenAtStop, h.absent]
      exact ⟨trivial, by simp, h⟩
  | cons entry log induction =>
      obtain ⟨think, bytes⟩ := entry
      cases think with
      | true =>
          have onward := induction (h.reasoning bytes)
          simpa [runUntil, seenAtStop, genEmit, emitChannel, contents] using onward
      | false =>
          have step := stop_feed_step h bytes
          have content : contents ((false, bytes) :: log) = bytes ++ contents log := by
            simp [contents]
          simp only [runUntil, seenAtStop, genEmit, listed, Bool.not_false, Bool.and_self, if_true,
            Bool.false_eq_true, if_false, content]
          cases hit : firstHit stops.strs (seen ++ bytes) with
          | some found =>
              obtain ⟨at_, stop⟩ := found
              simp only [hit] at step
              obtain ⟨abort, rest⟩ := step
              simp only [Option.isSome_some, if_true, hit, abort]
              refine ⟨trivial, rest.1, rest.2.1, rest.2.2.1, rest.2.2.2, ?_⟩
              rw [← List.append_assoc]
              exact List.prefix_append _ _
          | none =>
              simp only [hit] at step
              obtain ⟨abort, filtering⟩ := step
              simp only [Option.isSome_none, Bool.false_eq_true, if_false, abort]
              rw [← List.append_assoc]
              exact induction filtering

end GridcoreRunner.Completion
