import GridcoreRunner.BinaryHeap
import GridcoreRunner.Tokenizer.Vocabulary

/-!
# Merging symbols

`spm_encode` and `bpe_word` up to their output loops: the text is cut into symbols
on a doubly linked list, and the best adjacent pair is merged until none is left.
Two implementations stand in the source, a rescan of all pairs after every merge
and a queue of candidates. They are the same for both families but for the key of
a pair, so they are written once. An array is a function from its indices, and no
index is `none`.
-/

namespace GridcoreRunner.Tok

set_option autoImplicit false

/-- `sym_t`. The slices `st`, `ln`, `prev` and `next` of `bpe_word` are its fields. -/
structure Sym where
  start : Nat
  len : Nat
  prev : Option Nat
  next : Option Nat

abbrev Syms := Nat → Sym

/-- Where a piece of the text starts, and its length. -/
abbrev Span := Nat × Nat

def Sym.span (s : Sym) : Span := (s.start, s.len)

def slice (text : Bytes) (span : Span) : Bytes := (text.drop span.1).take span.2

/-- The loop that cuts a text into symbols. Each round reads at least one byte. -/
def cutLoop : Nat → Nat → Bytes → List Span
  | 0, _, _ => []
  | _ + 1, _, [] => []
  | rounds + 1, i, c :: s =>
      let l := if s.length + 1 < u8Len c then 1 else u8Len c
      (i, l) :: cutLoop rounds (i + l) ((c :: s).drop l)

def cut (text : Bytes) : List Span := cutLoop text.length 0 text

/-- The symbols as the cutting loop leaves them. -/
def linked (spans : List Span) : Syms := fun k =>
  { start := (spans.getD k (0, 0)).1
    len := (spans.getD k (0, 0)).2
    prev := if k = 0 then none else some (k - 1)
    next := if k + 1 < spans.length then some (k + 1) else none }

/-- `for (i = 0; i != -1 && next[i] != -1; i = next[i])`, from `i`. -/
def walk {β : Type} (visit : β → Nat → Nat → β) (sym : Syms) : Nat → Nat → β → β
  | 0, _, acc => acc
  | rounds + 1, i, acc =>
      match (sym i).next with
      | none => acc
      | some j => walk visit sym rounds j (visit acc i j)

/-- Merges the symbol `l` with its right neighbour. -/
def join (sym : Syms) (l : Nat) : Syms := fun k =>
  match (sym l).next with
  | none => sym k
  | some j =>
      if k = l then { sym l with len := (sym l).len + (sym j).len, next := (sym j).next }
      else if (sym j).next = some k then { sym k with prev := some l }
      else sym k

/-- `join`, and the absorbed symbol's length set to zero. -/
def absorb (sym : Syms) (l : Nat) : Syms := fun k =>
  if (sym l).next = some k then { join sym l k with len := 0 } else join sym l k

/-- The output loop's walk over what is left. -/
def pieces (sym : Syms) : Nat → Option Nat → List Span
  | 0, _ => []
  | _ + 1, none => []
  | rounds + 1, some i => (sym i).span :: pieces sym rounds (sym i).next

/-! ## The keys of a pair -/

/-- `SPM_SCORE_FLOOR`, the float nearest to `-1e30`. -/
def spmScoreFloor : Float32 := some (.finite (-1000000015047466219876688855040))

/-- `t->scores[id]`. -/
def score (scores : List Float32) (id : Nat) : Float32 := scores.getD id none

/-- The piece a SentencePiece merge would make. -/
def spmJoined (t : Tokenizer) (text : Bytes) (l r : Span) : Option Nat :=
  hmapGet t.tokens (slice text (l.1, l.2 + r.2))

/-- The rank of a pair. Keys of 512 bytes and more are skipped. -/
def bpeRank (t : Tokenizer) (w : Bytes) (l r : Span) : Option Nat :=
  if 512 ≤ l.2 + 1 + r.2 then none else hmapGet t.merges (slice w l ++ 0x20 :: slice w r)

/-- The key of `spm_push_pair`. -/
def spmKey (t : Tokenizer) (scores : List Float32) (text : Bytes) (l r : Span) : Option Real32 :=
  (spmJoined t text l r).bind fun id =>
    if gt (score scores id) spmScoreFloor then (score scores id).map Real32.neg else none

/-- The key of `bpe_push_pair`. -/
def bpeKey (t : Tokenizer) (w : Bytes) (l r : Span) : Option Real32 := (bpeRank t w l r).map ofRank

/-! ## The candidate queue -/

/-- `mcand`. -/
structure Mcand where
  key : Real32
  l : Nat
  r : Nat
  lenL : Nat
  lenR : Nat

def mcBetter (a b : Mcand) : Bool :=
  if a.key ≠ b.key then decide (a.key < b.key) else decide (a.l < b.l)

/-- `mheap`; it grows without end. -/
structure Mheap where
  e : Nat → Mcand
  n : Nat

def mhInit : Mheap := { e := fun _ => ⟨.posInf, 0, 0, 0, 0⟩, n := 0 }

def mhPush (h : Mheap) (c : Mcand) : Mheap :=
  { e := BinaryHeap.siftUp mcBetter h.n (fun k => if k = h.n then c else h.e k) h.n
    n := h.n + 1 }

def mhPop (h : Mheap) : Option (Mcand × Mheap) :=
  if h.n = 0 then none
  else
    let e := fun k => if k = 0 then h.e (h.n - 1) else h.e k
    some (h.e 0, { e := BinaryHeap.siftDown mcBetter (h.n - 1) (h.n - 1) e 0, n := h.n - 1 })

/-- `MC_LIVE`. -/
def mcLive (c : Mcand) (sym : Syms) : Bool :=
  decide ((sym c.l).next = some c.r) && (sym c.l).len == c.lenL && (sym c.r).len == c.lenR

/-- `spm_push_pair` and `bpe_push_pair`. -/
def pushPair (key : Span → Span → Option Real32) (sym : Syms) (h : Mheap) : Option Nat → Mheap
  | none => h
  | some l =>
      match (sym l).next with
      | none => h
      | some r =>
          match key (sym l).span (sym r).span with
          | none => h
          | some k => mhPush h ⟨k, l, r, (sym l).len, (sym r).len⟩

/-- `while (mh_pop(&h, &c))`. -/
def queueLoop (key : Span → Span → Option Real32) : Nat → Syms → Mheap → Syms
  | 0, sym, _ => sym
  | rounds + 1, sym, h =>
      match mhPop h with
      | none => sym
      | some (c, h) =>
          if mcLive c sym then
            let sym := absorb sym c.l
            queueLoop key rounds sym
              (pushPair key sym (pushPair key sym h (sym c.l).prev) (some c.l))
          else queueLoop key rounds sym h

/-- The candidates of all adjacent pairs. -/
def seeded (key : Span → Span → Option Real32) (sym : Syms) (n : Nat) : Mheap :=
  walk (fun h i _ => pushPair key sym h (some i)) sym n 0 mhInit

/-- The queue's merge of `n` symbols. A round takes a candidate out, and each of
the fewer than `n` merges puts in at most two. -/
def mergeQueue (key : Span → Span → Option Real32) (n : Nat) (sym : Syms) : Syms :=
  queueLoop key ((seeded key sym n).n + 2 * n) sym (seeded key sym n)

/-! ## The rescan -/

/-- The loop around a scan: at most `rounds` merges. -/
def rescan (pick : Syms → Option Nat) : Nat → Syms → Syms
  | 0, sym => sym
  | rounds + 1, sym =>
      match pick sym with
      | none => sym
      | some i => rescan pick rounds (join sym i)

/-- One pair of `spm_encode`'s scan: `best_score` and `best`. -/
def spmVisit (t : Tokenizer) (scores : List Float32) (text : Bytes) (sym : Syms)
    (best : Float32 × Option Nat) (i j : Nat) : Float32 × Option Nat :=
  match spmJoined t text (sym i).span (sym j).span with
  | none => best
  | some id => if gt (score scores id) best.1 then (score scores id, some i) else best

/-- One pair of `bpe_word`'s scan: `best_rank` and `best`. -/
def bpeVisit (t : Tokenizer) (w : Bytes) (sym : Syms) (best : Nat × Option Nat) (i j : Nat) :
    Nat × Option Nat :=
  match bpeRank t w (sym i).span (sym j).span with
  | none => best
  | some r => if r < best.1 then (r, some i) else best

def spmPick (t : Tokenizer) (scores : List Float32) (text : Bytes) (n : Nat) (sym : Syms) :
    Option Nat :=
  (walk (spmVisit t scores text sym) sym n 0 (spmScoreFloor, none)).2

/-- `INT_MAX`. -/
def intMax : Nat := 2147483647

def bpePick (t : Tokenizer) (w : Bytes) (n : Nat) (sym : Syms) : Option Nat :=
  (walk (bpeVisit t w sym) sym n 0 (intMax, none)).2

/-! ## The two merges of each family -/

def spmRescan (t : Tokenizer) (scores : List Float32) (text : Bytes) : Syms :=
  rescan (spmPick t scores text (cut text).length) (cut text).length (linked (cut text))

def spmQueue (t : Tokenizer) (scores : List Float32) (text : Bytes) : Syms :=
  mergeQueue (spmKey t scores text) (cut text).length (linked (cut text))

/-- The loop runs `while (ns > 1)`, and a merge takes one from `ns`. -/
def bpeRescan (t : Tokenizer) (w : Bytes) : Syms :=
  rescan (bpePick t w (cut w).length) ((cut w).length - 1) (linked (cut w))

def bpeQueue (t : Tokenizer) (w : Bytes) : Syms :=
  mergeQueue (bpeKey t w) (cut w).length (linked (cut w))

/-- The pieces the output loop reads. -/
def finalPieces (text : Bytes) (sym : Syms) : List Span := pieces sym (cut text).length (some 0)

/-- `use_merge_queue`; the hook is `g_merge_force`. -/
def useMergeQueue (force : Option Bool) (n : Nat) : Bool := force.getD (decide (24 ≤ n))

/-- The symbols `spm_encode` reads its pieces from. -/
def spmMerged (t : Tokenizer) (force : Option Bool) (text : Bytes) : Syms :=
  match t.scores with
  | none => linked (cut text)
  | some scores =>
      if useMergeQueue force (cut text).length then spmQueue t scores text
      else spmRescan t scores text

/-- The symbols `bpe_word` reads its pieces from. -/
def bpeMerged (t : Tokenizer) (force : Option Bool) (w : Bytes) : Syms :=
  if useMergeQueue force (cut w).length then bpeQueue t w else bpeRescan t w

end GridcoreRunner.Tok
