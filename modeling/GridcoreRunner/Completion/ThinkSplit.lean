import GridcoreRunner.Text
import GridcoreRunner.Engine.Constraint

/-!
# The thinking-tag splitter

`think_feed` scans a stream for the open tag while in content and for the close
tag while in reasoning. The last bytes that could still begin the tag are held
back, so the two channels do not depend on how the stream was cut.
-/

namespace GridcoreRunner.Completion

set_option autoImplicit false

open GridcoreRunner.Generation GridcoreRunner.Text

/-- `TS_CONTENT`, `TS_WS`, `TS_THINK`. -/
inductive Section
  | content | ws | think
  deriving DecidableEq, Repr

/-- A tag pair; `think_feed` would not leave its loop on an empty tag. -/
structure Tags where
  opens : Bytes
  close : Bytes
  opens_ne : opens ≠ []
  close_ne : close ≠ []

structure Split where
  state : Section
  buf : Bytes
  deriving DecidableEq, Repr

/-- What a feed leaves: the splitter, the sink behind the callback and whether
the callback stopped it. -/
structure Fed (κ : Type*) where
  split : Split
  sink : κ
  abort : Bool

variable {κ : Type*}

/-- `ts_find`. -/
def tsFind (tag text : Bytes) : Option Nat := (firstHit [tag] text).map Prod.fst

/-- The tag looked for, and whether the bytes in front of it are reasoning. -/
def Tags.wanted (tags : Tags) (think : Bool) : Bytes := if think then tags.close else tags.opens

/-- The section behind the tag. -/
def Section.behind (think : Bool) : Section := if think then .content else .ws

def Section.of (think : Bool) : Section := if think then .think else .content

/-- The scan loop of `think_feed` over `p`; each round consumes a tag. -/
def feedLoop (tags : Tags) (cb : κ → Bool → Bytes → κ × Bool) :
    Nat → κ → Section → Bytes → Fed κ
  | 0, k, state, p => ⟨⟨state, p⟩, k, false⟩
  | fuel + 1, k, state, p =>
      let p := if state = .ws then p.dropWhile isWs else p
      if state = .ws ∧ p = [] then ⟨⟨.ws, []⟩, k, false⟩
      else
        let think := state != .content
        let tag := tags.wanted think
        match tsFind tag p with
        | none =>
            let hold := min (tag.length - 1) p.length
            let sent := p.take (p.length - hold)
            let (k, rc) := if sent.isEmpty then (k, false) else cb k think sent
            ⟨⟨Section.of think, p.drop (p.length - hold)⟩, k, rc⟩
        | some q =>
            let (k, rc) := if q = 0 then (k, false) else cb k think (p.take q)
            if rc then ⟨⟨Section.of think, p.drop (q + tag.length)⟩, k, true⟩
            else feedLoop tags cb fuel k (Section.behind think) (p.drop (q + tag.length))

def thinkFeed (tags : Option Tags) (cb : κ → Bool → Bytes → κ × Bool) (split : Split) (k : κ)
    (bytes : Bytes) : Fed κ :=
  match tags with
  | none =>
      let (k, rc) := if bytes.isEmpty then (k, false) else cb k false bytes
      ⟨split, k, rc⟩
  | some tags =>
      feedLoop tags cb ((split.buf ++ bytes).length + 1) k split.state (split.buf ++ bytes)

def thinkFinish (tags : Option Tags) (cb : κ → Bool → Bytes → κ × Bool) (split : Split) (k : κ) :
    κ × Bool :=
  if tags.isNone || split.buf.isEmpty || split.state = .ws then (k, false)
  else cb k (split.state == .think) split.buf

/-- Tokens are fed until the callback stops the generation; a token that decodes
to nothing is not fed. -/
def feedTokens (tags : Option Tags) (cb : κ → Bool → Bytes → κ × Bool) :
    Split → κ → List Bytes → Fed κ
  | split, k, [] => ⟨split, k, false⟩
  | split, k, bytes :: tokens =>
      if bytes.isEmpty then feedTokens tags cb split k tokens
      else
        let fed := thinkFeed tags cb split k bytes
        if fed.abort then fed else feedTokens tags cb fed.split fed.sink tokens

/-! ## The emissions of a feed -/

/-- What the loop would hand a callback that never stops it. -/
def feedLog (tags : Tags) : Nat → Section → Bytes → List (Bool × Bytes) × Split
  | 0, state, p => ([], ⟨state, p⟩)
  | fuel + 1, state, p =>
      let p := if state = .ws then p.dropWhile isWs else p
      if state = .ws ∧ p = [] then ([], ⟨.ws, []⟩)
      else
        let think := state != .content
        let tag := tags.wanted think
        match tsFind tag p with
        | none =>
            let hold := min (tag.length - 1) p.length
            let sent := p.take (p.length - hold)
            (if sent.isEmpty then [] else [(think, sent)],
              ⟨Section.of think, p.drop (p.length - hold)⟩)
        | some q =>
            let later := feedLog tags fuel (Section.behind think) (p.drop (q + tag.length))
            ((if q = 0 then [] else [(think, p.take q)]) ++ later.1, later.2)

/-- Hand over emissions until one stops the sink. -/
def runUntil (cb : κ → Bool → Bytes → κ × Bool) : κ → List (Bool × Bytes) → κ × Bool
  | k, [] => (k, false)
  | k, (think, bytes) :: log =>
      let (k, rc) := cb k think bytes
      if rc then (k, true) else runUntil cb k log

@[simp] theorem run_until_nil (cb : κ → Bool → Bytes → κ × Bool) (k : κ) :
    runUntil cb k [] = (k, false) := rfl

@[simp] theorem run_until_single (cb : κ → Bool → Bytes → κ × Bool) (k : κ) (think : Bool)
    (bytes : Bytes) : runUntil cb k [(think, bytes)] = cb k think bytes := by
  cases stopped : cb k think bytes with
  | mk k' rc => cases rc <;> simp [runUntil, stopped]

theorem run_until_append (cb : κ → Bool → Bytes → κ × Bool) (k : κ)
    (front back : List (Bool × Bytes)) :
    runUntil cb k (front ++ back) =
      if (runUntil cb k front).2 then runUntil cb k front
      else runUntil cb (runUntil cb k front).1 back := by
  induction front generalizing k with
  | nil => simp [runUntil]
  | cons pair front induction =>
      obtain ⟨think, bytes⟩ := pair
      simp only [List.cons_append, runUntil]
      split
      · simp
      · exact induction _

/-- The loop hands its emissions to the callback in order; one that is not
stopped leaves the splitter where the log does. -/
theorem feed_loop_log (tags : Tags) (cb : κ → Bool → Bytes → κ × Bool) (fuel : Nat) (k : κ)
    (state : Section) (p : Bytes) :
    let log := feedLog tags fuel state p
    let fed := feedLoop tags cb fuel k state p
    (fed.sink, fed.abort) = runUntil cb k log.1 ∧ (fed.abort = false → fed.split = log.2) := by
  induction fuel generalizing k state p with
  | zero => exact ⟨rfl, fun _ => rfl⟩
  | succ fuel induction =>
      simp only [feedLoop, feedLog]
      generalize (if state = .ws then p.dropWhile isWs else p) = p
      by_cases empty : state = .ws ∧ p = []
      · simp [empty]
      · simp only [if_neg empty]
        cases tsFind (tags.wanted (state != .content)) p with
        | none =>
            simp only
            split <;> simp
        | some q =>
            simp only
            by_cases first : q = 0
            · simp only [first, if_true, List.nil_append, Bool.false_eq_true, if_false]
              exact induction _ _ _
            · simp only [first, if_false, List.singleton_append, runUntil]
              split
              · simp
              · exact induction _ _ _

/-! ## The visible channel of a stream -/

theorem ts_find_some {tag text : Bytes} {q : Nat} (found : tsFind tag text = some q) :
    firstHit [tag] text = some (q, tag) := by
  obtain ⟨⟨index, name⟩, hit, rfl⟩ := Option.map_eq_some_iff.mp found
  rw [hit, List.mem_singleton.mp (first_hit_split hit).1]

theorem ts_find_none {tag text : Bytes} (absent : tsFind tag text = none) :
    firstHit [tag] text = none := Option.map_eq_none_iff.mp absent

theorem ts_find_append {tag text : Bytes} {q : Nat} (found : tsFind tag text = some q)
    (more : Bytes) : tsFind tag (text ++ more) = some q := by
  rw [tsFind, first_hit_single_append (ts_find_some found) more]
  rfl

/-- A tag found inside the text ends inside it. -/
theorem ts_find_inside {tag text : Bytes} {q : Nat} (found : tsFind tag text = some q) :
    q + tag.length ≤ text.length := by
  obtain ⟨-, back, split⟩ := first_hit_split (ts_find_some found)
  have bound := (first_hit_some (ts_find_some found)).1
  have length := congrArg List.length split
  simp only [List.length_append, List.length_take] at length
  omega

theorem wanted_length_pos (tags : Tags) (think : Bool) : 0 < (tags.wanted think).length := by
  cases think with
  | false => exact List.length_pos_iff.mpr tags.opens_ne
  | true => exact List.length_pos_iff.mpr tags.close_ne

/-- The visible bytes of a text read from inside one of the two channels. -/
def contentOf (tags : Tags) (think : Bool) (text : Bytes) : Bytes :=
  match _found : tsFind (tags.wanted think) text with
  | none => if think then [] else text
  | some q =>
      let rest := text.drop (q + (tags.wanted think).length)
      if think then contentOf tags false rest
      else text.take q ++ contentOf tags true (rest.dropWhile isWs)
termination_by text.length
decreasing_by
  · have inside := ts_find_inside _found
    have positive := wanted_length_pos tags think
    simp only [List.length_drop]
    omega
  · have inside := ts_find_inside _found
    have positive := wanted_length_pos tags think
    have shorter := (List.dropWhile_sublist (l := text.drop (q + (tags.wanted think).length))
      isWs).length_le
    simp only [List.length_drop] at shorter
    omega

/-- Reading on from a splitter state. -/
def readFrom (tags : Tags) (state : Section) (text : Bytes) : Bytes :=
  match state with
  | .content => contentOf tags false text
  | .think => contentOf tags true text
  | .ws => contentOf tags true (text.dropWhile isWs)

def contents (log : List (Bool × Bytes)) : Bytes :=
  log.flatMap fun entry => if entry.1 then [] else entry.2

@[simp] theorem contents_nil : contents [] = [] := rfl

@[simp] theorem contents_append (front back : List (Bool × Bytes)) :
    contents (front ++ back) = contents front ++ contents back := by
  simp [contents]

theorem contents_single (think : Bool) (bytes : Bytes) :
    contents [(think, bytes)] = if think then [] else bytes := by
  cases think <;> simp [contents]

theorem contents_emit (think : Bool) (bytes : Bytes) :
    contents (if bytes.isEmpty then [] else [(think, bytes)]) = if think then [] else bytes := by
  cases bytes with
  | nil => simp
  | cons b bytes => simp [contents_single]

theorem content_of_none {tags : Tags} {think : Bool} {text : Bytes}
    (absent : tsFind (tags.wanted think) text = none) :
    contentOf tags think text = if think then [] else text := by
  rw [contentOf]
  split
  · rfl
  · next found => simp [absent] at found

theorem content_of_some {tags : Tags} {think : Bool} {text : Bytes} {q : Nat}
    (found : tsFind (tags.wanted think) text = some q) :
    contentOf tags think text = (if think then [] else text.take q) ++
      readFrom tags (Section.behind think) (text.drop (q + (tags.wanted think).length)) := by
  rw [contentOf]
  split
  · next absent => simp [absent] at found
  · next q' found' =>
    obtain rfl := Option.some.inj (found.symm.trans found')
    cases think <;> rfl

/-- Bytes in front of the longest possible partial tag read the same whatever
follows them. -/
theorem content_of_release {tags : Tags} {think : Bool} {p : Bytes}
    (absent : tsFind (tags.wanted think) p = none) (rest : Bytes) :
    let kept := p.length - min ((tags.wanted think).length - 1) p.length
    contentOf tags think (p ++ rest) = (if think then [] else p.take kept) ++
      contentOf tags think (p.drop kept ++ rest) := by
  intro kept
  have dead : AllDead [tags.wanted think] (p.take kept) (p.drop kept) := by
    apply all_dead_of_overlap (ts_find_none absent)
    intro needle member count short le _
    rw [List.mem_singleton.mp member] at short
    omega
  have shifted := first_hit_dead (dead.extend rest)
  rw [← List.append_assoc, List.take_append_drop] at shifted
  have length : (p.take kept).length = kept := by
    rw [List.length_take]
    omega
  cases later : tsFind (tags.wanted think) (p.drop kept ++ rest) with
  | none =>
      have whole : tsFind (tags.wanted think) (p ++ rest) = none := by
        rw [tsFind, shifted, ts_find_none later]
        rfl
      rw [content_of_none whole, content_of_none later]
      cases think with
      | true => rfl
      | false => simp [← List.append_assoc]
  | some q =>
      have whole : tsFind (tags.wanted think) (p ++ rest) = some (q + kept) := by
        rw [tsFind, shifted, ts_find_some later, length]
        rfl
      rw [content_of_some whole, content_of_some later, ← List.append_assoc]
      have split : p ++ rest = p.take kept ++ (p.drop kept ++ rest) := by
        rw [← List.append_assoc, List.take_append_drop]
      have dropped : (p ++ rest).drop (q + kept + (tags.wanted think).length) =
          (p.drop kept ++ rest).drop (q + (tags.wanted think).length) := by
        rw [split, show q + kept + (tags.wanted think).length =
          (p.take kept).length + (q + (tags.wanted think).length) by omega, List.drop_append,
          List.drop_of_length_le (by omega), Nat.add_sub_cancel_left, List.nil_append]
      have taken : (p ++ rest).take (q + kept) = p.take kept ++ (p.drop kept ++ rest).take q := by
        rw [split, show q + kept = (p.take kept).length + q by omega, List.take_length_add_append]
      rw [dropped, taken]
      cases think <;> simp

/-- What a splitter may hold between two feeds. -/
structure Settled (tags : Tags) (split : Split) : Prop where
  content : split.state = .content → split.buf.length < tags.opens.length
  think : split.state = .think → split.buf.length < tags.close.length
  ws : split.state = .ws → split.buf = []

theorem skip_ws_append (text rest : Bytes) :
    (text ++ rest).dropWhile isWs =
      if text.dropWhile isWs = [] then rest.dropWhile isWs else text.dropWhile isWs ++ rest := by
  simp [List.dropWhile_append]

theorem of_think_settled (tags : Tags) {think : Bool} {buf : Bytes}
    (short : buf.length < (tags.wanted think).length) : Settled tags ⟨Section.of think, buf⟩ := by
  cases think with
  | false => exact ⟨fun _ => short, fun other => by simp [Section.of] at other,
      fun other => by simp [Section.of] at other⟩
  | true => exact ⟨fun other => by simp [Section.of] at other, fun _ => short,
      fun other => by simp [Section.of] at other⟩

/-- A feed keeps the visible channel: what it emits, then what the rest of the
stream will show. The induction is on the rounds of the scan. -/
theorem feed_log_reads (tags : Tags) (fuel : Nat) (state : Section) (p : Bytes)
    (enough : p.length < fuel) :
    Settled tags (feedLog tags fuel state p).2 ∧ ∀ rest,
      readFrom tags state (p ++ rest) = contents (feedLog tags fuel state p).1 ++
        readFrom tags (feedLog tags fuel state p).2.state
          ((feedLog tags fuel state p).2.buf ++ rest) := by
  induction fuel generalizing state p with
  | zero => omega
  | succ fuel induction =>
      simp only [feedLog]
      by_cases empty : state = .ws ∧ (if state = .ws then p.dropWhile isWs else p) = []
      · obtain ⟨rfl, blank⟩ := empty
        simp only [if_true] at blank
        simp only [if_true, blank, and_self]
        refine ⟨⟨by simp, by simp, fun _ => rfl⟩, fun rest => ?_⟩
        simp [readFrom, skip_ws_append, blank]
      · simp only [if_neg empty]
        have reads : ∀ rest, readFrom tags state (p ++ rest) =
            contentOf tags (state != .content)
              ((if state = .ws then p.dropWhile isWs else p) ++ rest) := by
          intro rest
          cases state with
          | content => rfl
          | think => rfl
          | ws =>
              have some : ¬ p.dropWhile isWs = [] := by simpa using empty
              simp only [readFrom, skip_ws_append, some, if_true, if_false]
              rfl
        have shorter : (if state = .ws then p.dropWhile isWs else p).length ≤ p.length := by
          split
          · exact (List.dropWhile_sublist isWs).length_le
          · exact Nat.le_refl _
        generalize (if state = .ws then p.dropWhile isWs else p) = p' at reads shorter
        generalize (state != .content) = think at reads
        cases found : tsFind (tags.wanted think) p' with
        | none =>
            have positive := wanted_length_pos tags think
            constructor
            · apply of_think_settled
              simp only [List.length_drop]
              omega
            · intro rest
              rw [reads, content_of_release found rest, contents_emit]
              cases think <;> rfl
        | some q =>
            have inside := ts_find_inside found
            have positive := wanted_length_pos tags think
            have onward := induction (Section.behind think)
              (p'.drop (q + (tags.wanted think).length)) (by simp only [List.length_drop]; omega)
            apply And.intro onward.1
            intro rest
            rw [reads, content_of_some (ts_find_append found rest),
              List.drop_append_of_le_length inside, onward.2 rest, contents_append,
              List.append_assoc, List.take_append_of_le_length (by omega)]
            congr 1
            by_cases first : q = 0
            · simp [first]
            · rw [if_neg first, contents_single]

/-- What the end of the turn shows of the bytes still held. -/
theorem settled_reads {tags : Tags} {split : Split} (h : Settled tags split) :
    readFrom tags split.state split.buf = if split.state = .content then split.buf else [] := by
  have missing : ∀ tag : Bytes, split.buf.length < tag.length → tsFind tag split.buf = none := by
    intro tag short
    cases found : tsFind tag split.buf with
    | none => rfl
    | some q =>
        have inside := ts_find_inside found
        omega
  cases state : split.state with
  | content =>
      rw [readFrom, content_of_none (missing (tags.wanted false) (h.content state))]
      rfl
  | think =>
      rw [readFrom, content_of_none (missing (tags.wanted true) (h.think state))]
      rfl
  | ws =>
      have short := List.length_pos_iff.mpr tags.close_ne
      rw [h.ws state, readFrom, content_of_none]
      · rfl
      · cases found : tsFind (tags.wanted true) ([].dropWhile isWs) with
        | none => rfl
        | some q =>
            have inside := ts_find_inside found
            have positive := wanted_length_pos tags true
            simp only [List.dropWhile_nil, List.length_nil] at inside
            omega

/-! ## Whole streams -/

/-- The emissions of one token, with or without a tag pair. -/
def tokenLog (tags : Option Tags) (split : Split) (bytes : Bytes) : List (Bool × Bytes) × Split :=
  match tags with
  | none => (if bytes.isEmpty then [] else [(false, bytes)], split)
  | some tags => feedLog tags ((split.buf ++ bytes).length + 1) split.state (split.buf ++ bytes)

def streamLog (tags : Option Tags) : Split → List Bytes → List (Bool × Bytes) × Split
  | split, [] => ([], split)
  | split, bytes :: tokens =>
      if bytes.isEmpty then streamLog tags split tokens
      else
        let log := tokenLog tags split bytes
        let later := streamLog tags log.2 tokens
        (log.1 ++ later.1, later.2)

def finishLog (tags : Option Tags) (split : Split) : List (Bool × Bytes) :=
  if tags.isNone || split.buf.isEmpty || split.state = .ws then []
  else [(split.state == .think, split.buf)]

theorem think_feed_log (tags : Option Tags) (cb : κ → Bool → Bytes → κ × Bool) (split : Split)
    (k : κ) (bytes : Bytes) :
    let fed := thinkFeed tags cb split k bytes
    (fed.sink, fed.abort) = runUntil cb k (tokenLog tags split bytes).1 ∧
      (fed.abort = false → fed.split = (tokenLog tags split bytes).2) := by
  cases tags with
  | none =>
      simp only [thinkFeed, tokenLog]
      split <;> simp
  | some tags => exact feed_loop_log tags cb _ k split.state (split.buf ++ bytes)

theorem feed_tokens_log (tags : Option Tags) (cb : κ → Bool → Bytes → κ × Bool) (split : Split)
    (k : κ) (tokens : List Bytes) :
    let fed := feedTokens tags cb split k tokens
    (fed.sink, fed.abort) = runUntil cb k (streamLog tags split tokens).1 ∧
      (fed.abort = false → fed.split = (streamLog tags split tokens).2) := by
  induction tokens generalizing split k with
  | nil => exact ⟨rfl, fun _ => rfl⟩
  | cons bytes tokens induction =>
      simp only [feedTokens, streamLog]
      by_cases empty : bytes.isEmpty = true
      · simp only [if_pos empty]
        exact induction split k
      · simp only [if_neg empty]
        obtain ⟨fed, left⟩ := think_feed_log tags cb split k bytes
        rw [run_until_append, ← fed]
        cases stopped : (thinkFeed tags cb split k bytes).abort with
        | true => simp [stopped]
        | false =>
            simp only [Bool.false_eq_true, if_false]
            rw [← left stopped]
            exact induction _ _

theorem think_finish_log (tags : Option Tags) (cb : κ → Bool → Bytes → κ × Bool) (split : Split)
    (k : κ) : thinkFinish tags cb split k = runUntil cb k (finishLog tags split) := by
  unfold thinkFinish finishLog
  split <;> simp

/-- A splitter between feeds, with or without a tag pair. -/
def SplitSettled (tags : Option Tags) (split : Split) : Prop :=
  match tags with
  | none => split.buf = []
  | some tags => Settled tags split

/-- What the stream shows from a splitter state on. -/
def readStream (tags : Option Tags) (split : Split) (text : Bytes) : Bytes :=
  match tags with
  | none => text
  | some tags => readFrom tags split.state (split.buf ++ text)

theorem token_log_reads {tags : Option Tags} {split : Split} (h : SplitSettled tags split)
    (bytes : Bytes) :
    SplitSettled tags (tokenLog tags split bytes).2 ∧ ∀ rest,
      readStream tags split (bytes ++ rest) = contents (tokenLog tags split bytes).1 ++
        readStream tags (tokenLog tags split bytes).2 rest := by
  cases tags with
  | none =>
      apply And.intro h
      intro rest
      rw [tokenLog, contents_emit]
      rfl
  | some tags =>
      have reads := feed_log_reads tags ((split.buf ++ bytes).length + 1) split.state
        (split.buf ++ bytes) (Nat.lt_succ_self _)
      apply And.intro reads.1
      intro rest
      rw [readStream, ← List.append_assoc]
      exact reads.2 rest

/-- The visible channel does not depend on how the stream was cut. -/
theorem stream_log_reads {tags : Option Tags} {split : Split} (h : SplitSettled tags split)
    (tokens : List Bytes) :
    SplitSettled tags (streamLog tags split tokens).2 ∧
      readStream tags split tokens.flatten = contents (streamLog tags split tokens).1 ++
        readStream tags (streamLog tags split tokens).2 [] := by
  induction tokens generalizing split with
  | nil => exact ⟨h, by simp [streamLog]⟩
  | cons bytes tokens induction =>
      rw [streamLog, List.flatten_cons]
      by_cases empty : bytes.isEmpty = true
      · rw [if_pos empty, List.isEmpty_iff.mp empty, List.nil_append]
        exact induction h
      · rw [if_neg empty]
        have first := token_log_reads h bytes
        have later := induction first.1
        apply And.intro later.1
        rw [first.2, later.2, contents_append, List.append_assoc]

theorem finish_log_reads {tags : Option Tags} {split : Split} (h : SplitSettled tags split) :
    contents (finishLog tags split) = readStream tags split [] := by
  cases tags with
  | none => rfl
  | some tags =>
      rw [readStream, List.append_nil, settled_reads h]
      unfold finishLog
      cases state : split.state with
      | content =>
          cases held : split.buf with
          | nil => simp
          | cons b buf => simp [contents_single]
      | think =>
          cases held : split.buf with
          | nil => simp
          | cons b buf => simp [contents_single]
      | ws => simp

/-- A callback that only records. -/
def note (log : List (Bool × Bytes)) (think : Bool) (bytes : Bytes) :
    List (Bool × Bytes) × Bool :=
  (log ++ [(think, bytes)], false)

theorem run_until_note (front log : List (Bool × Bytes)) :
    runUntil note front log = (front ++ log, false) := by
  induction log generalizing front with
  | nil => simp
  | cons pair log induction =>
      obtain ⟨think, bytes⟩ := pair
      simp [runUntil, note, induction]

/-- The reference splitter: the whole stream in one feed, then the end. -/
def visible (tags : Option Tags) (start : Section) (stream : Bytes) : Bytes :=
  let fed := feedTokens tags note ⟨start, []⟩ [] [stream]
  contents (thinkFinish tags note fed.split fed.sink).1

theorem split_start_settled (tags : Option Tags) (start : Section) :
    SplitSettled tags ⟨start, []⟩ := by
  cases tags with
  | none => rfl
  | some tags =>
      exact ⟨fun _ => List.length_pos_iff.mpr tags.opens_ne,
        fun _ => List.length_pos_iff.mpr tags.close_ne, fun _ => rfl⟩

/-- All emissions of a turn, however it is cut, are the reference's. -/
theorem stream_log_visible (tags : Option Tags) (start : Section) (tokens : List Bytes) :
    contents ((streamLog tags ⟨start, []⟩ tokens).1 ++
      finishLog tags (streamLog tags ⟨start, []⟩ tokens).2) =
      visible tags start tokens.flatten := by
  have any : ∀ tokens : List Bytes,
      contents ((streamLog tags ⟨start, []⟩ tokens).1 ++
        finishLog tags (streamLog tags ⟨start, []⟩ tokens).2) =
        readStream tags ⟨start, []⟩ tokens.flatten := by
    intro tokens
    have reads := stream_log_reads (split_start_settled tags start) tokens
    rw [contents_append, finish_log_reads reads.1, ← reads.2]
  obtain ⟨fed, left⟩ := feed_tokens_log tags note ⟨start, []⟩ [] [tokens.flatten]
  rw [run_until_note, Prod.mk.injEq] at fed
  rw [any, visible, think_finish_log, run_until_note, fed.1, left fed.2, List.nil_append, any]
  simp

end GridcoreRunner.Completion
