import GridcoreRunner.Completion.ThinkSplit
import GridcoreRunner.Overlap

/-!
# Both channels of the thinking-tag splitter

Read from the left, a text goes back and forth between the first open tag and the first
close tag; the tags go, and the whitespace behind an open tag with them. However the text
was cut, the splitter hands over just the bytes of that reading, in their order, each on
its channel.
-/

namespace GridcoreRunner.Completion

set_option autoImplicit false

open GridcoreRunner.Generation GridcoreRunner.Text GridcoreRunner.Overlap

variable {κ : Type*}

/-- The bytes of one channel, marked as such. -/
def onChannel (think : Bool) (bytes : Bytes) : List (Bool × UInt8) := bytes.map (Prod.mk think)

/-- What reading a text from inside one of the two channels puts on the channels. -/
inductive Scanned (tags : Tags) : Bool → Bytes → List (Bool × UInt8) → Prop
  | last {think : Bool} {text : Bytes}
      (absent : ∀ index, ¬tags.wanted think <+: text.drop index) :
      Scanned tags think text (onChannel think text)
  | opens {front blank back : Bytes} {out : List (Bool × UInt8)}
      (first : First tags.opens (front ++ (tags.opens ++ (blank ++ back))) front.length)
      (blanks : blank.all isWs = true) (inked : back.dropWhile isWs = back)
      (later : Scanned tags true back out) :
      Scanned tags false (front ++ (tags.opens ++ (blank ++ back))) (onChannel false front ++ out)
  | close {front back : Bytes} {out : List (Bool × UInt8)}
      (first : First tags.close (front ++ (tags.close ++ back)) front.length)
      (later : Scanned tags false back out) :
      Scanned tags true (front ++ (tags.close ++ back)) (onChannel true front ++ out)

/-! ## The splitter, fed piece by piece -/

def thinkInit : Split := ⟨.content, []⟩

def thinkInitReasoning (tags : Option Tags) : Split :=
  if tags.isSome then { thinkInit with state := .think } else thinkInit

/-- One call after the other, with a callback nobody asks whether it stops. -/
def thinkFeeds (tags : Option Tags) (cb : κ → Bool → Bytes → κ × Bool) :
    Split → κ → List Bytes → Split × κ
  | split, k, [] => (split, k)
  | split, k, bytes :: pieces =>
      let fed := thinkFeed tags cb split k bytes
      thinkFeeds tags cb fed.split fed.sink pieces

/-- A whole stream and its end. -/
def thinkStream (tags : Option Tags) (cb : κ → Bool → Bytes → κ × Bool) (split : Split) (k : κ)
    (pieces : List Bytes) : κ :=
  let fed := thinkFeeds tags cb split k pieces
  (thinkFinish tags cb fed.1 fed.2).1

/-! ## The reading as a function -/

/-- Whitespace goes behind an open tag. -/
def afterTag (think : Bool) (rest : Bytes) : Bytes := if think then rest else rest.dropWhile isWs

theorem after_tag_shorter (think : Bool) (rest : Bytes) :
    (afterTag think rest).length ≤ rest.length := by
  cases think with
  | true => exact Nat.le_refl _
  | false => exact (List.dropWhile_sublist isWs).length_le

def scan (tags : Tags) (think : Bool) (text : Bytes) : List (Bool × UInt8) :=
  match _found : tsFind (tags.wanted think) text with
  | none => onChannel think text
  | some q =>
      onChannel think (text.take q) ++
        scan tags (!think) (afterTag think (text.drop (q + (tags.wanted think).length)))
termination_by text.length
decreasing_by
  have inside := ts_find_inside _found
  have positive := wanted_length_pos tags think
  have shorter := after_tag_shorter think (text.drop (q + (tags.wanted think).length))
  rw [List.length_drop] at shorter
  omega

theorem scan_none {tags : Tags} {think : Bool} {text : Bytes}
    (absent : tsFind (tags.wanted think) text = none) :
    scan tags think text = onChannel think text := by
  rw [scan]
  split
  · rfl
  · next found =>
      rw [absent] at found
      cases found

theorem scan_some {tags : Tags} {think : Bool} {text : Bytes} {q : Nat}
    (found : tsFind (tags.wanted think) text = some q) :
    scan tags think text = onChannel think (text.take q) ++
      scan tags (!think) (afterTag think (text.drop (q + (tags.wanted think).length))) := by
  rw [scan]
  split
  · next absent =>
      rw [absent] at found
      cases found
  · next other found' =>
      rw [found] at found'
      cases found'
      rfl

/-! ## The function reads as the reading does -/

theorem ts_find_first {tag text : Bytes} {q : Nat} (found : tsFind tag text = some q) :
    First tag text q := by
  have hit := ts_find_some found
  constructor
  · exact (hit_at_some (first_hit_some hit).2).2
  · intro earlier before
    exact hit_at_none.mp (first_hit_first hit earlier before) tag List.mem_cons_self

theorem ts_find_absent {tag text : Bytes} (absent : tsFind tag text = none) (tagged : tag ≠ [])
    (index : Nat) : ¬tag <+: text.drop index := by
  intro begins
  have nowhere := (first_hit_none_iff (by
    intro needle member
    rw [List.mem_singleton.mp member]
    exact tagged)).mp (ts_find_none absent)
  exact nowhere tag List.mem_cons_self (begins.isInfix.trans (List.drop_suffix index text).isInfix)

theorem wanted_ne (tags : Tags) (think : Bool) : tags.wanted think ≠ [] :=
  List.length_pos_iff.mp (wanted_length_pos tags think)

/-- The first place of a tag is where the search finds it. -/
theorem ts_find_of_first {tag text : Bytes} {q : Nat} (tagged : tag ≠ [])
    (first : First tag text q) : tsFind tag text = some q := by
  cases found : tsFind tag text with
  | none => exact absurd first.1 (ts_find_absent found tagged q)
  | some other => rw [first_unique (ts_find_first found) first]

theorem ts_find_of_absent {tag text : Bytes} (absent : ∀ index, ¬tag <+: text.drop index) :
    tsFind tag text = none := by
  cases found : tsFind tag text with
  | none => rfl
  | some q => exact absurd (ts_find_first found).1 (absent q)

/-- A tag found splits the text around it. -/
theorem ts_find_split {tag text : Bytes} {q : Nat} (found : tsFind tag text = some q) :
    text = text.take q ++ (tag ++ text.drop (q + tag.length)) := by
  rcases (ts_find_first found).1 with ⟨back, stands⟩
  have rest : text.drop (q + tag.length) = back := by
    rw [← List.drop_drop, ← stands, List.drop_left]
  rw [rest, stands, List.take_append_drop]

theorem drop_while_idem (rest : Bytes) :
    (rest.dropWhile isWs).dropWhile isWs = rest.dropWhile isWs := by
  induction rest with
  | nil => rfl
  | cons b rest induction =>
      cases blank : isWs b with
      | true =>
          rw [List.dropWhile_cons_of_pos blank]
          exact induction
      | false =>
          rw [List.dropWhile_cons_of_neg (by rw [blank]; exact Bool.false_ne_true),
            List.dropWhile_cons_of_neg (by rw [blank]; exact Bool.false_ne_true)]

/-- The function gives a reading. The recursion is on the tags. -/
theorem scan_scanned (tags : Tags) (think : Bool) (text : Bytes) :
    Scanned tags think text (scan tags think text) := by
  fun_induction scan tags think text with
  | case1 think text absent => exact .last (ts_find_absent absent (wanted_ne tags think))
  | case2 think text q found induction =>
      have split := ts_find_split found
      have inside := ts_find_inside found
      have place : (text.take q).length = q := by
        rw [List.length_take]
        omega
      have first : First (tags.wanted think) (text.take q ++ (tags.wanted think ++
          text.drop (q + (tags.wanted think).length))) (text.take q).length := by
        rw [← split, place]
        exact ts_find_first found
      cases think with
      | true =>
          have read : Scanned tags true (text.take q ++ (tags.wanted true ++
              text.drop (q + (tags.wanted true).length))) _ := Scanned.close first induction
          rw [← split] at read
          exact read
      | false =>
          have blanks := List.takeWhile_append_dropWhile (p := isWs)
            (l := text.drop (q + (tags.wanted false).length))
          rw [← blanks] at first
          have read : Scanned tags false (text.take q ++ (tags.wanted false ++ (_ ++ _))) _ :=
            Scanned.opens first List.all_takeWhile (drop_while_idem _) induction
          rw [blanks, ← split] at read
          exact read

theorem drop_behind (front tag rest : Bytes) :
    (front ++ (tag ++ rest)).drop (front.length + tag.length) = rest := by
  rw [← List.drop_drop, List.drop_left, List.drop_left]

/-- There is one reading. -/
theorem scanned_unique {tags : Tags} {think : Bool} {text : Bytes} {out : List (Bool × UInt8)}
    (read : Scanned tags think text out) : out = scan tags think text := by
  induction read with
  | last absent => rw [scan_none (ts_find_of_absent absent)]
  | @opens front blank back out first blanks inked later induction =>
      have found := ts_find_of_first tags.opens_ne first
      have skipped : (blank ++ back).dropWhile isWs = back := by
        rw [List.dropWhile_append_of_pos (List.all_eq_true.mp blanks), inked]
      rw [@scan_some tags false _ _ found, List.take_left, induction]
      apply congrArg (onChannel false front ++ ·)
      show _ = scan tags true ((List.drop (front.length + tags.opens.length) _).dropWhile isWs)
      rw [drop_behind, skipped]
  | @close front back out first later induction =>
      have found := ts_find_of_first tags.close_ne first
      rw [@scan_some tags true _ _ found, List.take_left, induction]
      apply congrArg (onChannel true front ++ ·)
      show _ = scan tags false (List.drop (front.length + tags.close.length) _)
      rw [drop_behind]

/-! ## What one feed emits -/

/-- Reading on from a splitter state. -/
def scanFrom (tags : Tags) (state : Section) (text : Bytes) : List (Bool × UInt8) :=
  match state with
  | .content => scan tags false text
  | .think => scan tags true text
  | .ws => scan tags true (text.dropWhile isWs)

/-- The bytes of a list of calls, each with its channel. -/
def spoken (log : List (Bool × Bytes)) : List (Bool × UInt8) :=
  log.flatMap fun entry => onChannel entry.1 entry.2

theorem spoken_append (front back : List (Bool × Bytes)) :
    spoken (front ++ back) = spoken front ++ spoken back := List.flatMap_append

theorem spoken_emit (think : Bool) (bytes : Bytes) :
    spoken (if bytes.isEmpty then [] else [(think, bytes)]) = onChannel think bytes := by
  cases bytes with
  | nil => rfl
  | cons b bytes => exact List.append_nil _

theorem on_channel_append (think : Bool) (front back : Bytes) :
    onChannel think (front ++ back) = onChannel think front ++ onChannel think back :=
  List.map_append

theorem scan_behind (tags : Tags) (think : Bool) (rest : Bytes) :
    scan tags (!think) (afterTag think rest) = scanFrom tags (Section.behind think) rest := by
  cases think <;> rfl

/-- Bytes that no tag can still begin in read the same whatever follows them. -/
theorem scan_release {tags : Tags} {think : Bool} {p : Bytes}
    (absent : tsFind (tags.wanted think) p = none) (rest : Bytes) :
    let kept := p.length - min ((tags.wanted think).length - 1) p.length
    scan tags think (p ++ rest) =
      onChannel think (p.take kept) ++ scan tags think (p.drop kept ++ rest) := by
  intro kept
  have dead : AllDead [tags.wanted think] (p.take kept) (p.drop kept) := by
    apply all_dead_of_overlap (ts_find_none absent)
    intro needle member count short le _
    rw [List.mem_singleton.mp member] at short
    omega
  have shifted := first_hit_dead (dead.extend rest)
  rw [← List.append_assoc, List.take_append_drop] at shifted
  have length : (p.take kept).length = kept := by
    rw [List.length_take]
    omega
  have split : p ++ rest = p.take kept ++ (p.drop kept ++ rest) := by
    rw [← List.append_assoc, List.take_append_drop]
  cases later : tsFind (tags.wanted think) (p.drop kept ++ rest) with
  | none =>
      have whole : tsFind (tags.wanted think) (p ++ rest) = none := by
        rw [tsFind, shifted, ts_find_none later]
        rfl
      rw [scan_none whole, scan_none later, ← on_channel_append, ← split]
  | some q =>
      have whole : tsFind (tags.wanted think) (p ++ rest) = some (q + kept) := by
        rw [tsFind, shifted, ts_find_some later, length]
        rfl
      have dropped : (p ++ rest).drop (q + kept + (tags.wanted think).length) =
          (p.drop kept ++ rest).drop (q + (tags.wanted think).length) := by
        have count : q + kept + (tags.wanted think).length =
            (p.take kept).length + (q + (tags.wanted think).length) := by omega
        rw [split, count, ← List.drop_drop, List.drop_left]
      have taken : (p ++ rest).take (q + kept) = p.take kept ++ (p.drop kept ++ rest).take q := by
        have count : q + kept = (p.take kept).length + q := by omega
        rw [split, count, List.take_length_add_append]
      rw [scan_some whole, scan_some later, dropped, taken, on_channel_append, List.append_assoc]

/-- A feed keeps the reading: what it emits, then what the rest will be read as. The
induction is on the rounds of the scan loop. -/
theorem feed_log_scans (tags : Tags) (fuel : Nat) (state : Section) (p : Bytes)
    (enough : p.length < fuel) (rest : Bytes) :
    scanFrom tags state (p ++ rest) = spoken (feedLog tags fuel state p).1 ++
      scanFrom tags (feedLog tags fuel state p).2.state
        ((feedLog tags fuel state p).2.buf ++ rest) := by
  induction fuel generalizing state p with
  | zero => exact absurd enough (Nat.not_lt_zero _)
  | succ fuel induction =>
      simp only [feedLog]
      by_cases empty : state = .ws ∧ (if state = .ws then p.dropWhile isWs else p) = []
      · rw [if_pos empty]
        rcases empty with ⟨blank, gone⟩
        rw [if_pos blank] at gone
        rw [blank]
        show scan tags true ((p ++ rest).dropWhile isWs) = scan tags true (rest.dropWhile isWs)
        rw [skip_ws_append, if_pos gone]
      · rw [if_neg empty]
        have reads : scanFrom tags state (p ++ rest) = scan tags (state != .content)
            ((if state = .ws then p.dropWhile isWs else p) ++ rest) := by
          cases state with
          | content => rfl
          | think => rfl
          | ws =>
              have inked : ¬p.dropWhile isWs = [] := fun gone => empty ⟨rfl, gone⟩
              show scan tags true ((p ++ rest).dropWhile isWs) = _
              rw [skip_ws_append, if_neg inked]
              rfl
        have shorter : (if state = .ws then p.dropWhile isWs else p).length ≤ p.length := by
          split
          · exact (List.dropWhile_sublist isWs).length_le
          · exact Nat.le_refl _
        generalize (if state = .ws then p.dropWhile isWs else p) = p' at reads shorter
        generalize (state != .content) = think at reads
        cases found : tsFind (tags.wanted think) p' with
        | none =>
            have onward : ∀ text, scanFrom tags (Section.of think) text = scan tags think text := by
              cases think <;> exact fun _ => rfl
            dsimp only
            rw [reads, scan_release found rest, spoken_emit, onward]
        | some q =>
            have inside := ts_find_inside found
            have positive := wanted_length_pos tags think
            have room : (p'.drop (q + (tags.wanted think).length)).length < fuel := by
              rw [List.length_drop]
              omega
            have onward := induction (Section.behind think) _ room
            have emitted : spoken (if q = 0 then [] else [(think, p'.take q)]) =
                onChannel think (p'.take q) := by
              split
              · next first =>
                  rw [first]
                  rfl
              · exact List.append_nil _
            dsimp only
            rw [reads, scan_some (ts_find_append found rest),
              List.drop_append_of_le_length inside, scan_behind, onward, spoken_append, emitted,
              List.take_append_of_le_length (by omega), List.append_assoc]

/-- What the end of the stream emits of the bytes still held. -/
theorem finish_scans {tags : Tags} {split : Split} (settled : Settled tags split) :
    scanFrom tags split.state split.buf = spoken (finishLog (some tags) split) := by
  have missing : ∀ tag : Bytes, split.buf.length < tag.length → tsFind tag split.buf = none := by
    intro tag short
    cases found : tsFind tag split.buf with
    | none => rfl
    | some q =>
        have inside := ts_find_inside found
        omega
  rcases split with ⟨state, buf⟩
  cases state with
  | content =>
      show scan tags false buf = _
      rw [scan_none (missing (tags.wanted false) (settled.content rfl))]
      cases buf with
      | nil => rfl
      | cons b buf => exact (List.append_nil _).symm
  | think =>
      show scan tags true buf = _
      rw [scan_none (missing (tags.wanted true) (settled.think rfl))]
      cases buf with
      | nil => rfl
      | cons b buf => exact (List.append_nil _).symm
  | ws =>
      have held : buf = [] := settled.ws rfl
      rw [held] at missing ⊢
      show scan tags true [] = []
      rw [scan_none (missing (tags.wanted true) (wanted_length_pos tags true))]
      rfl

/-! ## Whole streams -/

/-- The calls of a list of feeds. -/
def feedsLog (tags : Tags) : Split → List Bytes → List (Bool × Bytes) × Split
  | split, [] => ([], split)
  | split, bytes :: pieces =>
      let log := tokenLog (some tags) split bytes
      let later := feedsLog tags log.2 pieces
      (log.1 ++ later.1, later.2)

/-- Cut anywhere, the feeds emit the reading of the whole. -/
theorem feeds_log_scans {tags : Tags} {split : Split} (settled : Settled tags split)
    (pieces : List Bytes) :
    Settled tags (feedsLog tags split pieces).2 ∧
      scanFrom tags split.state (split.buf ++ pieces.flatten) =
        spoken (feedsLog tags split pieces).1 ++ scanFrom tags (feedsLog tags split pieces).2.state
          (feedsLog tags split pieces).2.buf := by
  induction pieces generalizing split with
  | nil =>
      apply And.intro settled
      rw [List.flatten_nil, List.append_nil]
      rfl
  | cons bytes pieces induction =>
      have enough := Nat.lt_succ_self (split.buf ++ bytes).length
      have kept := (feed_log_reads tags _ split.state (split.buf ++ bytes) enough).1
      have first := feed_log_scans tags _ split.state (split.buf ++ bytes) enough pieces.flatten
      have later := induction kept
      apply And.intro later.1
      rw [List.flatten_cons, ← List.append_assoc, first, later.2, ← List.append_assoc,
        ← spoken_append]
      rfl

/-- What a list of calls does to the sink when none of them stops. -/
def sinkAfter (cb : κ → Bool → Bytes → κ × Bool) (k : κ) (log : List (Bool × Bytes)) : κ :=
  log.foldl (fun k entry => (cb k entry.1 entry.2).1) k

theorem run_until_never {cb : κ → Bool → Bytes → κ × Bool}
    (never : ∀ k think bytes, (cb k think bytes).2 = false) (k : κ) (log : List (Bool × Bytes)) :
    runUntil cb k log = (sinkAfter cb k log, false) := by
  induction log generalizing k with
  | nil => rfl
  | cons entry log induction =>
      rcases entry with ⟨think, bytes⟩
      rw [runUntil]
      dsimp only
      rw [never k think bytes, if_neg Bool.false_ne_true, induction]
      rfl

theorem think_feeds_log {cb : κ → Bool → Bytes → κ × Bool}
    (never : ∀ k think bytes, (cb k think bytes).2 = false) (tags : Tags) (split : Split) (k : κ)
    (pieces : List Bytes) : thinkFeeds (some tags) cb split k pieces =
      ((feedsLog tags split pieces).2, sinkAfter cb k (feedsLog tags split pieces).1) := by
  induction pieces generalizing split k with
  | nil => rfl
  | cons bytes pieces induction =>
      have fed := think_feed_log (some tags) cb split k bytes
      rw [run_until_never never] at fed
      have sink := congrArg Prod.fst fed.1
      have onward := fed.2 (congrArg Prod.snd fed.1)
      rw [thinkFeeds]
      dsimp only at sink ⊢
      rw [sink, onward, induction]
      rw [feedsLog]
      dsimp only
      unfold sinkAfter
      rw [List.foldl_append]

/-- The calls of a whole stream and its end. -/
def streamCalls (tags : Tags) (split : Split) (pieces : List Bytes) : List (Bool × Bytes) :=
  (feedsLog tags split pieces).1 ++ finishLog (some tags) (feedsLog tags split pieces).2

theorem think_stream_calls {cb : κ → Bool → Bytes → κ × Bool}
    (never : ∀ k think bytes, (cb k think bytes).2 = false) (tags : Tags) (split : Split) (k : κ)
    (pieces : List Bytes) : thinkStream (some tags) cb split k pieces =
      sinkAfter cb k (streamCalls tags split pieces) := by
  unfold thinkStream
  rw [think_feeds_log never]
  dsimp only
  rw [think_finish_log, run_until_never never]
  unfold streamCalls sinkAfter
  rw [List.foldl_append]

theorem stream_calls_scan (tags : Tags) (think : Bool) (pieces : List Bytes) :
    spoken (streamCalls tags ⟨Section.of think, []⟩ pieces) = scan tags think pieces.flatten := by
  have feeds := feeds_log_scans (split_start_settled (some tags) (Section.of think)) pieces
  have begins : ∀ text, scanFrom tags (Section.of think) text = scan tags think text := by
    cases think <;> exact fun _ => rfl
  unfold streamCalls
  rw [spoken_append, ← finish_scans feeds.1, ← feeds.2, begins]
  rfl

/-- The bytes of one channel. -/
def channel (think : Bool) (out : List (Bool × UInt8)) : Bytes :=
  (out.filter fun mark => mark.1 == think).map Prod.snd

/-- What the calls on one channel were handed, put together. -/
def handed (think : Bool) (log : List (Bool × Bytes)) : Bytes :=
  (log.filter fun entry => entry.1 == think).flatMap Prod.snd

theorem handed_channel (think : Bool) (log : List (Bool × Bytes)) :
    handed think log = channel think (spoken log) := by
  induction log with
  | nil => rfl
  | cons entry log induction =>
      rcases entry with ⟨other, bytes⟩
      have split : channel think (spoken ((other, bytes) :: log)) =
          channel think (onChannel other bytes) ++ channel think (spoken log) := by
        unfold channel
        rw [← List.map_append, ← List.filter_append]
        rfl
      have one : channel think (onChannel other bytes) = if other == think then bytes else [] := by
        unfold channel onChannel
        rw [List.filter_map, List.map_map]
        cases same : other == think with
        | true =>
            rw [show ((fun mark : Bool × UInt8 => mark.1 == think) ∘ Prod.mk other) =
              fun _ => true from funext fun _ => same, List.filter_true]
            exact List.map_id bytes
        | false =>
            rw [show ((fun mark : Bool × UInt8 => mark.1 == think) ∘ Prod.mk other) =
              fun _ => false from funext fun _ => same, List.filter_false]
            rfl
      rw [split, one, ← induction]
      unfold handed
      rw [List.filter_cons]
      cases same : other == think <;> rfl

/-- However a text is cut, a callback that never stops the splitter is handed its reading: each
byte once, in order, on its channel. -/
theorem think_stream_reads (tags : Tags) (reasoning : Bool) (cb : κ → Bool → Bytes → κ × Bool)
    (never : ∀ k think bytes, (cb k think bytes).2 = false) (k : κ) (pieces : List Bytes) :
    ∃ log out, thinkStream (some tags) cb
        (if reasoning then thinkInitReasoning (some tags) else thinkInit) k pieces =
        sinkAfter cb k log ∧
      Scanned tags reasoning pieces.flatten out ∧
      (∀ other, Scanned tags reasoning pieces.flatten other → other = out) ∧
      spoken log = out ∧ handed false log = channel false out ∧
        handed true log = channel true out := by
  have start : (if reasoning then thinkInitReasoning (some tags) else thinkInit) =
      ⟨Section.of reasoning, []⟩ := by
    cases reasoning <;> rfl
  refine ⟨streamCalls tags ⟨Section.of reasoning, []⟩ pieces, scan tags reasoning pieces.flatten,
    ?_, scan_scanned tags reasoning pieces.flatten, ?_, stream_calls_scan tags reasoning pieces,
    ?_, ?_⟩
  · rw [start]
    exact think_stream_calls never tags _ k pieces
  · intro other read
    exact scanned_unique read
  · rw [handed_channel, stream_calls_scan]
  · rw [handed_channel, stream_calls_scan]

/-- Tags that begin with the same letter, and the close tag overlaps itself. -/
def bracketTags : Tags := ⟨[60, 97], [60, 60, 47], by decide, by decide⟩

theorem sink_after_note (front log : List (Bool × Bytes)) : sinkAfter note front log = front ++ log := by
  have noted := run_until_note front log
  rw [run_until_never (fun _ _ _ => rfl)] at noted
  exact congrArg Prod.fst noted

/-- Both tags cut in two, and the close tag behind a letter of its own. -/
theorem cut_tags_read :
    Scanned bracketTags false [120, 60, 97, 32, 60, 60, 60, 47, 121]
      [(false, 120), (true, 60), (false, 121)] := by
  have reads := think_stream_reads bracketTags false note (fun _ _ _ => rfl) []
    [[120, 60], [97, 32, 60], [60, 60], [], [47, 121]]
  rcases reads with ⟨log, out, calls, read, _, spoke, _, _⟩
  rw [sink_after_note, List.nil_append] at calls
  have is : out = [(false, 120), (true, 60), (false, 121)] := by
    rw [← spoke, ← calls]
    decide
  rw [is] at read
  exact read

end GridcoreRunner.Completion
