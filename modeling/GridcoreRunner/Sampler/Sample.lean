import GridcoreRunner.Select
import Mathlib.Algebra.Order.Field.Basic
import Mathlib.Data.Prod.Lex

/-!
# Token sampling

`sample_pick` in exact arithmetic: the logits are in an ordered field, `expf` and `logf` are
any strictly increasing function to the positive elements and its inverse. A vocabulary is
not empty, and every allocation succeeds.
-/

namespace GridcoreRunner.Sampling

set_option autoImplicit false

open GridcoreRunner.Causal

variable {K : Type*} [Field K] [LinearOrder K]

scoped instance four_large : Nat.AtLeastTwo 4 := ⟨by decide⟩
scoped instance cap_large : Nat.AtLeastTwo 1024 := ⟨by decide⟩

/-- `expf` and `logf`. -/
structure ExpLog (K : Type*) [Field K] [LinearOrder K] where
  exp : K → K
  log : K → K
  mono : StrictMono exp
  pos : ∀ x, 0 < exp x
  zero : exp 0 = 1
  exp_log : ∀ y, 0 < y → exp (log y) = y

/-- `rng_next`. -/
def rngNext (s : UInt64) : UInt64 :=
  let x := s ^^^ (s <<< 13)
  let x := x ^^^ (x >>> 7)
  x ^^^ (x <<< 17)

/-- `rng_f32`: the draw; the state behind it is `rngNext`. -/
def rngF32 (K : Type*) [Field K] (s : UInt64) : K := ((rngNext s >>> 40).toNat : K) / 16777216

/-- `sampler`; `recent` is what its window holds. -/
structure Sampler (K : Type*) where
  temp : K
  topP : K
  minP : K
  repeatPenalty : K
  topK : Int
  rng : UInt64
  recent : List Int
  noPenalty : List Int

/-- `cand_t`. -/
structure Cand (K : Type*) where
  p : K
  id : Nat

/-- `cand_cmp`. -/
def candCmp (x y : Cand K) : Int :=
  if x.p ≠ y.p then if y.p > x.p then 1 else -1 else (x.id : Int) - y.id

/-- The order of `cand_cmp`: logit descending, then id ascending. -/
def Cand.rank (c : Cand K) : Kᵒᵈ ×ₗ Nat := toLex (OrderDual.toDual c.p, c.id)

omit [Field K] [LinearOrder K] in
theorem rank_injective : Function.Injective (@Cand.rank K) := by
  intro x y same
  cases x
  cases y
  cases same
  rfl

instance : LinearOrder (Cand K) := LinearOrder.lift' Cand.rank rank_injective

omit [Field K] in
theorem cand_le_iff {x y : Cand K} : x ≤ y ↔ y.p < x.p ∨ x.p = y.p ∧ x.id ≤ y.id := by
  show x.rank ≤ y.rank ↔ _
  unfold Cand.rank
  rw [Prod.Lex.toLex_le_toLex]
  rfl

omit [Field K] in
/-- The comparison is negative, zero or positive as the order has it. -/
theorem cand_cmp_iff (x y : Cand K) : (candCmp x y ≤ 0 ↔ x ≤ y) ∧ (0 ≤ candCmp x y ↔ y ≤ x) := by
  rw [cand_le_iff, cand_le_iff]
  unfold candCmp
  rcases lt_trichotomy x.p y.p with less | same | more
  · rw [if_pos (ne_of_lt less), if_pos less]
    have other := ne_of_lt less
    have not_more := not_lt.mpr (le_of_lt less)
    simp only [less, other, not_more, false_and, or_false, true_or, iff_true, iff_false]
    omega
  · rw [if_neg (not_not.mpr same), same]
    simp only [lt_irrefl, false_or, true_and]
    omega
  · rw [if_pos (ne_of_gt more), if_neg (not_lt.mpr (le_of_lt more))]
    have other := ne_of_gt more
    have not_less := not_lt.mpr (le_of_lt more)
    simp only [more, other, other.symm, not_less, false_and, or_false, iff_true, iff_false]
    omega

/-- `qsort` by `cand_cmp`. -/
def sortCands (c : List (Cand K)) : List (Cand K) := c.insertionSort fun x y => candCmp x y ≤ 0

omit [Field K] in
theorem sort_cands_order (c : List (Cand K)) : sortCands c = c.insertionSort (· ≤ ·) := by
  have order : (fun x y : Cand K => candCmp x y ≤ 0) = (· ≤ ·) := by
    funext x y
    exact propext (cand_cmp_iff x y).1
  unfold sortCands
  simp only [order]

/-! ## Picking among candidates -/

def mass (c : List (Cand K)) : K := (c.map fun v => v.p).sum

def scaleBy (sum : K) (c : List (Cand K)) : List (Cand K) := c.map fun v => { v with p := v.p / sum }

/-- How many candidates it takes to reach the bound, or all of them. -/
def massCut (bound : K) : K → List (Cand K) → Nat
  | _, [] => 0
  | cum, v :: c => if cum + v.p ≥ bound then 1 else massCut bound (cum + v.p) c + 1

def topPStage (topP : K) (c : List (Cand K)) : List (Cand K) :=
  if topP < 1 then
    let c := c.take (massCut topP 0 c)
    scaleBy (mass c) c
  else c

def minPStage (minP : K) : List (Cand K) → List (Cand K)
  | [] => []
  | best :: c =>
      if minP > 0 then
        let kept := best :: c.takeWhile fun v => !decide (v.p < minP * best.p)
        if kept.length < c.length + 1 then scaleBy (mass kept) kept else best :: c
      else best :: c

/-- The roulette walk: the first candidate whose cumulative mass is above the draw. -/
def walk (r : K) : K → List (Cand K) → Option Nat
  | _, [] => none
  | cum, v :: c => if r < cum + v.p then some v.id else walk r (cum + v.p) c

structure Pick where
  token : Int
  rng : UInt64
  fellOff : Bool

/-- The softmax weights of candidates in descending order. -/
def weigh (x : ExpLog K) (c : List (Cand K)) : List (Cand K) :=
  c.map fun v => { v with p := x.exp (v.p - (c.head?.map fun v => v.p).getD 0) }

/-- The candidates that survive the filters, with their shares. -/
def survivors (x : ExpLog K) (s : Sampler K) (c : List (Cand K)) (normSum : K) : List (Cand K) :=
  let c := weigh x c
  let sum := if normSum > 0 then normSum else mass c
  minPStage s.minP (topPStage s.topP (scaleBy sum c))

/-- `pick_scaled`; a negative `rPre` makes it draw. -/
def pickScaled (x : ExpLog K) (s : Sampler K) (rng : UInt64) (c : List (Cand K)) (normSum rPre : K) :
    Pick :=
  let c := survivors x s c normSum
  let r := if rPre ≥ 0 then rPre else rngF32 K rng
  let rng := if rPre ≥ 0 then rng else rngNext rng
  match walk r 0 c with
  | some id => { token := id, rng, fellOff := false }
  | none => { token := (c.getLast?.map fun v => (v.id : Int)).getD 0, rng, fellOff := true }

/-! ## `sample_pick` -/

/-- The repeat penalty: every token of the window that the logits can hold, and that is not
exempt. -/
def penalise (s : Sampler K) (logits : List K) : List K :=
  if s.temp > 0 ∧ s.repeatPenalty ≠ 1 then
    s.recent.foldl (fun logits (tok : Int) =>
      if tok < 0 ∨ tok ≥ (logits.length : Int) then logits
      else if tok ∈ s.noPenalty then logits
      else logits.modify tok.toNat fun l => if l > 0 then l / s.repeatPenalty else l * s.repeatPenalty)
      logits
  else logits

def argmax : List K → Nat → Nat → K → Nat
  | [], _, best, _ => best
  | l :: rest, i, best, most => if l > most then argmax rest (i + 1) i l else argmax rest (i + 1) best most

/-- `HEAD_CAP`. -/
def headCap : Nat := 4096

def cand (temp : K) (logits : List K) (i : Nat) : Cand K := { p := logits.getD i 0 / temp, id := i }

/-- The whole vocabulary, its logits scaled by the temperature. -/
def cands (temp : K) (logits : List K) : List (Cand K) := cells (cand temp logits) logits.length

def maxLogit : List (Cand K) → K
  | [] => 0
  | v :: c => c.foldl (fun mx v => if v.p > mx then v.p else mx) v.p

/-- The softmax denominator of the whole vocabulary. -/
def totalMass (x : ExpLog K) (c : List (Cand K)) : K :=
  (c.map fun v => x.exp (v.p - maxLogit c)).sum

/-- The candidates above a threshold. -/
def headAt (c : List (Cand K)) (tLog : K) : List (Cand K) :=
  c.filter fun v => decide (tLog ≤ v.p - maxLogit c)

def headMass (x : ExpLog K) (c : List (Cand K)) (tLog : K) : K :=
  ((headAt c tLog).map fun v => x.exp (v.p - maxLogit c)).sum

/-- The head provably contains what survives the filters, or what the draw lands in. -/
def headEnough (x : ExpLog K) (s : Sampler K) (c : List (Cand K)) (tLog rPre : K) : Bool :=
  if s.topP < 1 then decide (s.topP * totalMass x c ≤ headMass x c tLog)
  else if s.minP > 0 then decide (tLog ≤ x.log s.minP)
  else decide (rPre * totalMass x c < headMass x c tLog)

/-- How the head path ends: with a token, before the full sort, or with the head's memory freed
twice. -/
inductive Head
  | done (token : Int) (rng : UInt64)
  | retreat (rng : UInt64)
  | freedTwice

/-- The thresholds still to try, the next one being `tLog`. -/
def headFrom (x : ExpLog K) (s : Sampler K) (c : List (Cand K)) (wantK : Nat) (rPre : K)
    (rng : UInt64) : Nat → K → Head
  | 0, _ => .retreat rng
  | loosen + 1, tLog =>
      if (headAt c tLog).length > headCap then .retreat rng
      else if headEnough x s c tLog rPre then
        let pick := pickScaled x s rng ((sortCands (headAt c tLog)).take wantK)
          (if wantK < c.length then 0 else totalMass x c) rPre
        -- `free(h); break;`, and `free(h)` again behind the loop
        if pick.fellOff then .freedTwice else .done pick.token pick.rng
      else headFrom x s c wantK rPre rng loosen (tLog * 4)

/-- How many candidates are wanted: `top_k`, or all when it is off. -/
def wantedK (s : Sampler K) (n : Nat) : Nat := if 0 < s.topK ∧ s.topK < n then s.topK.toNat else n

/-- `sample_pick`: the token, -1 when none is allowed, and the state of the generator. There is no
result where memory is freed twice. -/
def samplePick (x : ExpLog K) (s : Sampler K) (logits : List K) (ok : Option (Nat → Bool)) :
    Option (Int × UInt64) :=
  let logits := penalise s logits
  let best := argmax logits.tail 1 0 (logits.headD 0)
  if s.temp ≤ 0 ∧ ok.all (fun ok => ok best) then some (best, s.rng)
  else
    let temp := if s.temp > 0 then s.temp else 1
    let wantK := wantedK s logits.length
    let unconstrained := decide (s.temp > 0) && ok.isNone
    let noFilter := decide (wantK ≥ logits.length) && decide (s.topP ≥ 1) && decide (s.minP ≤ 0)
    let drawn := noFilter && unconstrained && decide (logits.length ≥ 4096)
    let rPre := if drawn then rngF32 K s.rng else -1
    let rng := if drawn then rngNext s.rng else s.rng
    let c := cands temp logits
    if unconstrained && decide (wantK < logits.length) then
      let chosen := cells (Selection.selectTopk (cand temp logits) logits.length wantK) wantK
      let pick := pickScaled x s rng (sortCands chosen) 0 rPre
      some (pick.token, pick.rng)
    else
      let head := if unconstrained && decide (logits.length ≥ 4096) then
          headFrom x s c wantK rPre rng 6 (x.log (1 / 1024))
        else .retreat rng
      match head with
      | .done token rng => some (token, rng)
      | .freedTwice => none
      | .retreat rng =>
          let sorted := sortCands c
          if s.temp ≤ 0 then
            some (((sorted.find? fun v => ok.all fun ok => ok v.id).map fun v => (v.id : Int)).getD (-1),
              rng)
          else
            let k := (match ok with
              | none => sorted
              | some ok => sorted.filter fun v => ok v.id).take wantK
            if ok.isSome && k.isEmpty then some (-1, rng)
            else
              let pick := pickScaled x s rng k 0 rPre
              some (pick.token, pick.rng)

/-- The whole vocabulary sorted, its first candidates, and one draw. -/
def fullSortPick (x : ExpLog K) (s : Sampler K) (logits : List K) : Int × UInt64 :=
  let sorted := sortCands (cands s.temp (penalise s logits))
  let pick := pickScaled x s s.rng (sorted.take (wantedK s (penalise s logits).length)) 0 (-1)
  (pick.token, pick.rng)

end GridcoreRunner.Sampling
