import GridcoreRunner.Http.Framing

/-!
# Reading a request

The front of `handle_conn`: the header block into a buffer of its own, the request line, the two
checks, and the body. `recv` gives the bytes of a connection in pieces of any length. What comes of
a connection is stated beside it from the bytes alone: the header block is cut off where it ends,
and the body behind it.
-/

namespace GridcoreRunner.Http

set_option autoImplicit false

/-! ## The connection -/

/-- What a connection ends with: `recv` answers nothing, or fails. The deadline is a failure. -/
inductive Ending where
  | closed
  | failed
  deriving DecidableEq, Repr

/-- The bytes that arrive before the end, and how many come at a time: one more than `more` of
what has been read so far, if there is room for them. -/
structure Peer where
  stream : Bytes
  more : Nat → Nat
  ending : Ending

def recv (peer : Peer) (got room : Nat) : Bytes :=
  (peer.stream.drop got).take (min room (peer.more got + 1))

/-- What the client is told. -/
inductive Refusal where
  | silence
  | error (code : Nat) (message : String)
  deriving DecidableEq, Repr

def Ending.refusal : Ending → Refusal
  | .closed => .silence
  | .failed => .error 408 "request read timed out"

structure Request where
  method : Bytes
  path : Bytes
  body : Option Bytes
  deriving DecidableEq, Repr

/-! ## The request line -/

def space : UInt8 := 0x20

def question : UInt8 := 0x3f

/-- `HTTP/1.1` -/
def http11 : Bytes := [0x48, 0x54, 0x54, 0x50, 0x2f, 0x31, 0x2e, 0x31]

/-- `HTTP/1.0` -/
def http10 : Bytes := [0x48, 0x54, 0x54, 0x50, 0x2f, 0x31, 0x2e, 0x30]

/-- A line of three words; no NUL stands before its end. -/
def splitLine (line : Bytes) : Option (Bytes × Bytes) :=
  match memchr space line with
  | none => none
  | some sp1 =>
      let rest := line.drop (sp1 + 1)
      match memchr space rest with
      | none => none
      | some sp2 =>
          let version := rest.drop (sp2 + 1)
          let shape := sp1 ≠ 0 ∧ sp2 ≠ 0 ∧ version ≠ [] ∧ memchr space version = none
          if shape ∧ sp1 < 8 ∧ sp2 < 256 ∧ (version = http11 ∨ version = http10) then
            some (line.take sp1, rest.take sp2)
          else none

/-- The method, the path, and where the headers start. -/
def parseRequestLine (hdr : Bytes) : Option (Bytes × Bytes × Nat) :=
  match findCrlf hdr with
  | none => none
  | some end' => (splitLine (hdr.take end')).map fun words => (words.1, words.2, end' + 2)

/-! ## The request -/

/-- `sizeof(hdr) - 1`. -/
def headRoom : Nat := 16383

/-- The loop that fills `hdr`; every piece has a byte. -/
def headLoop (peer : Peer) : Nat → Bytes → Except Refusal (Bytes × Nat)
  | 0, _ => .error (.error 400 "bad request")
  | rounds + 1, hdr =>
      if hdr.length < headRoom then
        let r := recv peer hdr.length (headRoom - hdr.length)
        if r = [] then .error peer.ending.refusal
        else
          match findHead (hdr ++ r) with
          | some headerEnd => .ok (hdr ++ r, headerEnd)
          | none => headLoop peer rounds (hdr ++ r)
      else .error (.error 400 "bad request")

def bodyMax : Nat := 32 * 1024 * 1024

/-- What the header block says: method, path without its query, and the length of the body. -/
def checkHead (hdr : Bytes) (headerEnd : Nat) : Except Refusal (Bytes × Bytes × Nat) :=
  match parseRequestLine hdr with
  | none => .error (.error 400 "malformed request line")
  | some (method, path, firstHeader) =>
      if ¬validateRequestAuthority hdr firstHeader headerEnd then
        .error (.error 403 "Host and Origin must be loopback")
      else
        match parseRequestFraming hdr firstHeader headerEnd with
        | none => .error (.error 400 "invalid request framing")
        | some contentLength =>
            if bodyMax < contentLength then .error (.error 400 "body too large")
            else .ok (method, path.takeWhile (· ≠ question), contentLength)

/-- The loop that fills the body, which starts at `start`. -/
def bodyLoop (peer : Peer) (start contentLength : Nat) : Nat → Bytes → Except Refusal Bytes
  | 0, body => .ok body
  | rounds + 1, body =>
      if body.length < contentLength then
        let r := recv peer (start + body.length) (contentLength - body.length)
        if r = [] then .error peer.ending.refusal
        else bodyLoop peer start contentLength rounds (body ++ r)
      else .ok body

/-- The front of `handle_conn`; `memory` says which sizes `malloc` gives. -/
def readRequest (memory : Nat → Bool) (peer : Peer) : Except Refusal Request :=
  (headLoop peer (headRoom + 1) []).bind fun read =>
    (checkHead read.1 read.2).bind fun head =>
      let start := read.2 + 4
      let contentLength := head.2.2
      if contentLength = 0 then .ok ⟨head.1, head.2.1, none⟩
      else if memory (contentLength + 1) then
        (bodyLoop peer start contentLength contentLength
          ((read.1.drop start).take contentLength)).map fun body =>
            ⟨head.1, head.2.1, some body⟩
      else .error (.error 500 "cannot allocate request body")

/-! ## What it comes to -/

/-- A request from the bytes of a connection: the checks see the header block alone. -/
def requestOf (memory : Nat → Bool) (stream : Bytes) (ending : Ending) :
    Except Refusal Request :=
  match findHead (stream.take headRoom) with
  | none =>
      .error (if headRoom ≤ stream.length then .error 400 "bad request" else ending.refusal)
  | some headerEnd =>
      (checkHead (stream.take (headerEnd + 4)) headerEnd).bind fun head =>
        let rest := stream.drop (headerEnd + 4)
        let contentLength := head.2.2
        if contentLength = 0 then .ok ⟨head.1, head.2.1, none⟩
        else if memory (contentLength + 1) then
          if contentLength ≤ rest.length then
            .ok ⟨head.1, head.2.1, some (rest.take contentLength)⟩
          else .error ending.refusal
        else .error (.error 500 "cannot allocate request body")

/-! ## The ends of lines -/

variable {s : Bytes} {n p k : Nat}

theorem find_crlf_append (found : findCrlf s = some n) (more : Bytes) :
    findCrlf (s ++ more) = some n := by
  induction s generalizing n with
  | nil => cases found
  | cons c s induction =>
      rw [findCrlf] at found
      rw [List.cons_append, findCrlf]
      by_cases zero : c = 0
      · rw [if_pos zero] at found
        cases found
      rw [if_neg zero] at found ⊢
      by_cases ends : c = cr ∧ s.head? = some lf
      · rw [if_pos ends] at found
        rw [if_pos, found]
        refine ⟨ends.1, ?_⟩
        cases s with
        | nil => cases ends.2
        | cons d s => exact ends.2
      · rw [if_neg ends] at found
        obtain ⟨m, later, next⟩ := Option.map_eq_some_iff.mp found
        have still : ¬(c = cr ∧ (s ++ more).head? = some lf) := by
          cases s with
          | nil => cases later
          | cons d s => exact ends
        rw [if_neg still, induction later, Option.map_some, next]

/-- A line's end is there, with two bytes. -/
theorem find_crlf_inside (found : findCrlf s = some n) : n + 2 ≤ s.length := by
  induction s generalizing n with
  | nil => cases found
  | cons c s induction =>
      rw [findCrlf] at found
      by_cases zero : c = 0
      · rw [if_pos zero] at found
        cases found
      rw [if_neg zero] at found
      by_cases ends : c = cr ∧ s.head? = some lf
      · rw [if_pos ends, Option.some.injEq] at found
        cases s with
        | nil => cases ends.2
        | cons d s =>
            simp only [List.length_cons]
            omega
      · rw [if_neg ends] at found
        obtain ⟨m, later, next⟩ := Option.map_eq_some_iff.mp found
        have inside := induction later
        rw [List.length_cons]
        omega

/-- The search sees no more than the line's end. -/
theorem find_crlf_take (found : findCrlf s = some n) (enough : n + 2 ≤ k) :
    findCrlf (s.take k) = some n := by
  induction s generalizing n k with
  | nil => cases found
  | cons c s induction =>
      obtain ⟨k, rfl⟩ : ∃ less, k = less + 1 := ⟨k - 1, by omega⟩
      rw [findCrlf] at found
      rw [List.take_succ_cons, findCrlf]
      by_cases zero : c = 0
      · rw [if_pos zero] at found
        cases found
      rw [if_neg zero] at found ⊢
      by_cases ends : c = cr ∧ s.head? = some lf
      · rw [if_pos ends] at found
        rw [if_pos, found]
        refine ⟨ends.1, ?_⟩
        rw [List.head?_take, if_neg (by omega)]
        exact ends.2
      · rw [if_neg ends] at found
        obtain ⟨m, later, next⟩ := Option.map_eq_some_iff.mp found
        have still : ¬(c = cr ∧ (s.take k).head? = some lf) := by
          rw [List.head?_take, if_neg (by omega)]
          exact ends
        rw [if_neg still, induction later (by omega), Option.map_some, next]

theorem find_crlf_of_take (found : findCrlf (s.take k) = some n) :
    findCrlf s = some n ∧ n + 2 ≤ k := by
  constructor
  · have whole := find_crlf_append found (s.drop k)
    rw [List.take_append_drop] at whole
    exact whole
  · have inside := find_crlf_inside found
    rw [List.length_take] at inside
    omega

/-! ## The end of the header block -/

theorem find_head_inside (found : findHead s = some p) : p + 4 ≤ s.length := by
  induction s generalizing p with
  | nil => cases found
  | cons c s induction =>
      rw [findHead] at found
      by_cases zero : c = 0
      · rw [if_pos zero] at found
        cases found
      rw [if_neg zero] at found
      by_cases ends : [cr, lf, cr, lf] <+: c :: s
      · rw [if_pos ends, Option.some.injEq] at found
        have four : 4 ≤ (c :: s).length := ends.length_le
        omega
      · rw [if_neg ends] at found
        obtain ⟨m, later, next⟩ := Option.map_eq_some_iff.mp found
        have inside := induction later
        rw [List.length_cons]
        omega

theorem find_head_append (found : findHead s = some p) (more : Bytes) :
    findHead (s ++ more) = some p := by
  induction s generalizing p with
  | nil => cases found
  | cons c s induction =>
      have inside := find_head_inside found
      rw [findHead] at found
      rw [List.cons_append, findHead]
      by_cases zero : c = 0
      · rw [if_pos zero] at found
        cases found
      rw [if_neg zero] at found ⊢
      by_cases ends : [cr, lf, cr, lf] <+: c :: s
      · rw [if_pos ends] at found
        rw [if_pos, found]
        exact ends.trans (List.prefix_append _ more)
      · rw [if_neg ends] at found
        obtain ⟨m, later, next⟩ := Option.map_eq_some_iff.mp found
        have still : ¬[cr, lf, cr, lf] <+: c :: (s ++ more) := by
          intro starts
          apply ends
          exact List.prefix_of_prefix_length_le starts (List.prefix_append (c :: s) more)
            (Nat.le_trans (Nat.le_add_left 4 p) inside)
        rw [if_neg still, induction later, Option.map_some, next]

theorem find_head_of_take (found : findHead (s.take k) = some p) {more : Nat} (longer : k ≤ more) :
    findHead (s.take more) = some p := by
  have whole := find_head_append found ((s.drop k).take (more - k))
  have split : s.take k ++ (s.drop k).take (more - k) = s.take more := by
    rw [← List.take_add, Nat.add_sub_cancel' longer]
  rw [split] at whole
  exact whole

/-- The first line ends before the block does, or with it. -/
theorem find_head_line (found : findHead s = some p) : ∃ n, n ≤ p ∧ findCrlf s = some n := by
  induction s generalizing p with
  | nil => cases found
  | cons c s induction =>
      rw [findHead] at found
      rw [findCrlf]
      by_cases zero : c = 0
      · rw [if_pos zero] at found
        cases found
      rw [if_neg zero] at found ⊢
      by_cases line : c = cr ∧ s.head? = some lf
      · rw [if_pos line]
        exact ⟨0, Nat.zero_le p, rfl⟩
      · rw [if_neg line]
        have later' : ¬[cr, lf, cr, lf] <+: c :: s := by
          intro starts
          apply line
          obtain ⟨rest, whole⟩ := starts
          rw [List.cons_append, List.cons.injEq] at whole
          rw [← whole.2]
          exact ⟨whole.1.symm, rfl⟩
        rw [if_neg later'] at found
        obtain ⟨m, later, next⟩ := Option.map_eq_some_iff.mp found
        obtain ⟨n, below, line'⟩ := induction later
        refine ⟨n + 1, by omega, ?_⟩
        rw [line', Option.map_some]

/-! ## The checks see the header block alone -/

/-- The walk sees the block and the two bytes behind it. -/
theorem each_line_take {σ : Type} (step : σ → Bytes → Option σ) (fuel room : Nat) (s : Bytes)
    (state : σ) :
    eachLine step fuel room (s.take (room + 2)) state = eachLine step fuel room s state := by
  induction fuel generalizing room s state with
  | zero => rfl
  | succ fuel induction =>
      rw [eachLine, eachLine]
      by_cases nothing : room = 0
      · rw [if_pos nothing, if_pos nothing]
      rw [if_neg nothing, if_neg nothing]
      cases cut : findCrlf (s.take (room + 2)) with
      | some n =>
          obtain ⟨whole, inside⟩ := find_crlf_of_take cut
          have line : (s.take (room + 2)).take n = s.take n := by
            rw [List.take_take, Nat.min_eq_left (by omega)]
          simp only [whole]
          rw [if_neg (by omega), if_neg (by omega), line]
          congr 1
          funext next
          by_cases last : room - (n + 2) = 0
          · rw [last]
            cases fuel with
            | zero => rfl
            | succ fuel =>
                rw [eachLine, eachLine, if_pos rfl, if_pos rfl]
          · have short : (s.take (room + 2)).drop (n + 2) =
                (s.drop (n + 2)).take (room - (n + 2) + 2) := by
              rw [List.drop_take]
              congr 1
              omega
            rw [short]
            exact induction (room - (n + 2)) (s.drop (n + 2)) next
      | none =>
          cases whole : findCrlf s with
          | none => rfl
          | some n =>
              simp only
              by_cases past : room < n
              · rw [if_pos past]
              · rw [find_crlf_take whole (by omega)] at cut
                cases cut

theorem header_lines_take {σ : Type} (step : σ → Bytes → Option σ) (hdr : Bytes)
    {firstHeader headerEnd : Nat} (inside : firstHeader ≤ headerEnd + 2) (state : σ) :
    headerLines step (hdr.take (headerEnd + 4)) firstHeader headerEnd state =
      headerLines step hdr firstHeader headerEnd state := by
  unfold headerLines
  by_cases none' : headerEnd - firstHeader = 0
  · rw [none']
    rfl
  · have block : ((hdr.take (headerEnd + 4)).drop firstHeader).take
          (headerEnd - firstHeader + 2) =
        (hdr.drop firstHeader).take (headerEnd - firstHeader + 2) := by
      rw [List.drop_take, List.take_take, Nat.min_eq_left (by omega)]
    rw [← each_line_take, block, each_line_take]

/-- What follows the header block is not looked at. -/
theorem check_head_take {hdr : Bytes} {headerEnd : Nat} (found : findHead hdr = some headerEnd) :
    checkHead (hdr.take (headerEnd + 4)) headerEnd = checkHead hdr headerEnd := by
  obtain ⟨n, below, line⟩ := find_head_line found
  have request : parseRequestLine (hdr.take (headerEnd + 4)) = parseRequestLine hdr := by
    unfold parseRequestLine
    rw [find_crlf_take line (by omega), line]
    simp only
    rw [List.take_take, Nat.min_eq_left (by omega)]
  unfold checkHead
  rw [request]
  cases words : parseRequestLine hdr with
  | none => rfl
  | some read =>
      have first : read.2.2 = n + 2 := by
        unfold parseRequestLine at words
        rw [line] at words
        obtain ⟨split, _, same⟩ := Option.map_eq_some_iff.mp words
        rw [← same]
      have inside : read.2.2 ≤ headerEnd + 2 := by omega
      have authority : validateRequestAuthority (hdr.take (headerEnd + 4)) read.2.2 headerEnd =
          validateRequestAuthority hdr read.2.2 headerEnd := by
        unfold validateRequestAuthority
        rw [header_lines_take authorityLine hdr inside]
      have framing : parseRequestFraming (hdr.take (headerEnd + 4)) read.2.2 headerEnd =
          parseRequestFraming hdr read.2.2 headerEnd := by
        unfold parseRequestFraming
        rw [header_lines_take framingLine hdr inside]
      simp only [authority, framing]

/-! ## The loops -/

/-- A piece is the next bytes of the connection. -/
theorem recv_take (peer : Peer) {got room : Nat} (inside : got ≤ peer.stream.length) :
    ∃ more, recv peer got room = (peer.stream.drop got).take more ∧ more ≤ room ∧
      got + more ≤ peer.stream.length ∧
      peer.stream.take got ++ recv peer got room = peer.stream.take (got + more) ∧
      (0 < room → (recv peer got room = [] ↔ got = peer.stream.length)) ∧
      (recv peer got room ≠ [] → 0 < more) := by
  have piece : recv peer got room = (peer.stream.drop got).take
      (min (min room (peer.more got + 1)) (peer.stream.length - got)) := by
    unfold recv
    rw [← List.length_drop, ← List.take_eq_take_min]
  refine ⟨min (min room (peer.more got + 1)) (peer.stream.length - got), piece, ?_, ?_, ?_, ?_, ?_⟩
  · omega
  · omega
  · rw [piece, ← List.take_add]
  · intro some'
    unfold recv
    rw [List.take_eq_nil_iff, List.drop_eq_nil_iff]
    omega
  · intro some'
    unfold recv at some'
    rw [ne_eq, List.take_eq_nil_iff, List.drop_eq_nil_iff] at some'
    omega

/-- The header buffer holds the block, or the bytes run out first. -/
theorem head_loop_reads (peer : Peer) {rounds got : Nat} (inside : got ≤ peer.stream.length)
    (room : got ≤ headRoom) (enough : headRoom - got < rounds)
    (yet : findHead (peer.stream.take got) = none) :
    (findHead (peer.stream.take headRoom) = none ∧
        headLoop peer rounds (peer.stream.take got) =
          .error (if headRoom ≤ peer.stream.length then .error 400 "bad request"
            else peer.ending.refusal)) ∨
      ∃ k headerEnd, k ≤ headRoom ∧ findHead (peer.stream.take k) = some headerEnd ∧
        headLoop peer rounds (peer.stream.take got) = .ok (peer.stream.take k, headerEnd) := by
  induction rounds generalizing got with
  | zero => omega
  | succ rounds induction =>
      have length : (peer.stream.take got).length = got := by
        rw [List.length_take, Nat.min_eq_left inside]
      rw [headLoop, length]
      by_cases open' : got < headRoom
      · rw [if_pos open']
        obtain ⟨more, _, fits, within, joined, ended, moves⟩ :=
          @recv_take peer got (headRoom - got) inside
        have runsOut := ended (by omega)
        simp only
        by_cases nothing : recv peer got (headRoom - got) = []
        · rw [if_pos nothing]
          have all := runsOut.mp nothing
          apply Or.inl
          constructor
          · rw [List.take_of_length_le (by omega)]
            rw [all, List.take_length] at yet
            exact yet
          · rw [if_neg (by omega)]
        · rw [if_neg nothing, joined]
          have further := moves nothing
          cases found : findHead (peer.stream.take (got + more)) with
          | some headerEnd =>
              exact Or.inr ⟨got + more, headerEnd, by omega, found, rfl⟩
          | none => exact induction within (by omega) (by omega) found
      · rw [if_neg open']
        have full : got = headRoom := by omega
        apply Or.inl
        rw [full] at yet inside
        rw [if_pos inside]
        exact ⟨yet, rfl⟩

/-- The body is filled from the bytes behind the block. -/
theorem body_loop_reads (peer : Peer) {start contentLength rounds have' : Nat}
    (inside : start + have' ≤ peer.stream.length) (room : have' ≤ contentLength)
    (enough : contentLength - have' ≤ rounds) :
    bodyLoop peer start contentLength rounds ((peer.stream.drop start).take have') =
      if contentLength ≤ (peer.stream.drop start).length then
        .ok ((peer.stream.drop start).take contentLength)
      else .error peer.ending.refusal := by
  have rest : (peer.stream.drop start).length = peer.stream.length - start := List.length_drop
  induction rounds generalizing have' with
  | zero =>
      have full : have' = contentLength := by omega
      rw [bodyLoop, full, if_pos (by omega)]
  | succ rounds induction =>
      have length : ((peer.stream.drop start).take have').length = have' := by
        rw [List.length_take]
        omega
      rw [bodyLoop, length]
      by_cases short : have' < contentLength
      · rw [if_pos short]
        obtain ⟨more, piece, fits, within, _, ended, moves⟩ :=
          @recv_take peer (start + have') (contentLength - have') inside
        have runsOut := ended (by omega)
        simp only
        by_cases nothing : recv peer (start + have') (contentLength - have') = []
        · rw [if_pos nothing, if_neg]
          have all := runsOut.mp nothing
          omega
        · rw [if_neg nothing, piece, ← List.drop_drop, ← List.take_add]
          have further := moves nothing
          exact induction (by omega) (by omega) (by omega)
      · rw [if_neg short, if_pos (by omega)]
        have full : have' = contentLength := by omega
        rw [full]

/-- Whatever pieces a connection's bytes come in, the request is the one that they spell; what
stands in the buffer behind the header block, and on the line behind the body, is not looked
at. -/
theorem request_is_the_stream (memory : Nat → Bool) (peer : Peer) :
    readRequest memory peer = requestOf memory peer.stream peer.ending := by
  have begun : findHead (peer.stream.take 0) = none := by
    rw [List.take_zero]
    rfl
  unfold readRequest requestOf
  obtain ⟨absent, refused⟩ | ⟨k, headerEnd, fits, found, read⟩ :=
    @head_loop_reads peer (headRoom + 1) 0 (Nat.zero_le _) (Nat.zero_le _) (Nat.lt_succ_self _)
      begun
  · rw [List.take_zero] at refused
    rw [refused, absent]
    rfl
  · rw [List.take_zero] at read
    have block := find_head_inside found
    rw [List.length_take] at block
    have whole := find_head_of_take found fits
    have head : (peer.stream.take k).take (headerEnd + 4) = peer.stream.take (headerEnd + 4) := by
      rw [List.take_take, Nat.min_eq_left (by omega)]
    rw [read, whole]
    simp only [Except.bind]
    rw [← check_head_take found, head]
    cases checkHead (peer.stream.take (headerEnd + 4)) headerEnd with
    | error refusal => rfl
    | ok words =>
        simp only
        by_cases empty : words.2.2 = 0
        · rw [if_pos empty, if_pos empty]
        · rw [if_neg empty, if_neg empty]
          by_cases allocated : memory (words.2.2 + 1) = true
          · rw [if_pos allocated, if_pos allocated]
            have given : ((peer.stream.take k).drop (headerEnd + 4)).take words.2.2 =
                (peer.stream.drop (headerEnd + 4)).take
                  (min (min words.2.2 (k - (headerEnd + 4)))
                    (peer.stream.length - (headerEnd + 4))) := by
              rw [List.drop_take, List.take_take, List.take_eq_take_min, List.length_drop]
            rw [given, body_loop_reads peer (by omega) (by omega) (by omega)]
            by_cases all : words.2.2 ≤ (peer.stream.drop (headerEnd + 4)).length
            · rw [if_pos all, if_pos all]
              rfl
            · rw [if_neg all, if_neg all]
              rfl
          · rw [if_neg allocated, if_neg allocated]

end GridcoreRunner.Http
