import GridcoreRunner.Model.Router
import Mathlib.Data.List.Perm.Basic
import Mathlib.Data.List.Nodup

/-!
# The experts of a mixture

`moe_ffn_token` sends one token through its experts, in the order in which the router has picked
them. `moe_ffn_grouped` takes expert after expert, gathers the tokens that have it, sends them
through it at once and scatters what comes out.
-/

namespace GridcoreRunner.Model.Moe

set_option autoImplicit false

/-- The three matrices of an expert. -/
inductive Matrix where
  | gate
  | up
  | down
  deriving DecidableEq, Repr

/-- What the experts' branch reads of the model and of the layer. `matvec cols which e` is a column
of `matvec_b` on a matrix of expert `e`, of `cols` columns that are taken at once; single
columns have a kernel of their own. -/
structure Experts (R : Type*) where
  nEmbd : Nat
  nff : Nat
  matvec : Nat → Matrix → Nat → (Nat → R) → Nat → R
  ffnRelu2 : Bool
  gateB : Option (Nat → R)
  upB : Option (Nat → R)
  downB : Option (Nat → R)
  gatedAct : R → R → R

variable {R : Type*} [LinearOrder R] [Zero R] [Add R] [Mul R]

/-! ## One expert -/

/-- An expert's own bias. -/
def addBias (bias : Option (Nat → R)) (e n : Nat) (y : Nat → R) : Nat → R :=
  match bias with
  | none => y
  | some b => fun i => y i + b (e * n + i)

/-- The input of the down projection. -/
def hidden (x : Experts R) (cols e : Nat) (xin : Nat → R) : Nat → R :=
  let u := x.matvec cols .up e xin
  if x.ffnRelu2 then fun j =>
    let r := if 0 < u j then u j else 0
    r * r
  else
    let g := addBias x.gateB e x.nff (x.matvec cols .gate e xin)
    let u := addBias x.upB e x.nff u
    fun j => x.gatedAct (g j) (u j)

def expertOut (x : Experts R) (cols e : Nat) (xin : Nat → R) : Nat → R :=
  addBias x.downB e x.nEmbd (x.matvec cols .down e (hidden x cols e xin))

/-- `out[i] += w * dexp[i]`. -/
def addWeighted (x : Experts R) (cols : Nat → Nat) (xin : Nat → R) (out : Nat → R)
    (slot : Nat × R) : Nat → R :=
  fun i => out i + slot.2 * expertOut x (cols slot.1) slot.1 xin i

/-! ## One token, and all tokens of a batch -/

/-- `moe_ffn_token`, behind the router. -/
def moeFfnToken (x : Experts R) (sel : List Nat) (selw : List R) (xin : Nat → R) : Nat → R :=
  (sel.zip selw).foldl (addWeighted x (fun _ => 1) xin) fun _ => 0

/-- The first slot in which a token has an expert. -/
def slotOf (sel : List Nat) (selw : List R) (e : Nat) : Option R :=
  ((sel.zip selw).find? fun slot => slot.1 == e).map Prod.snd

section Batch

variable (x : Experts R) (n : Nat) (sel : Nat → List Nat) (selw : Nat → List R)
  (xb : Nat → Nat → R)

/-- `moe_gidx` and `moe_gw` of an expert. -/
def gather (e : Nat) : List (Nat × R) :=
  (List.range n).filterMap fun b => (slotOf (sel b) (selw b) e).map fun w => (b, w)

/-- The loop that scatters the rows of an expert, which `cols` tokens have. -/
def scatterRows (cols e : Nat) (rows : List (Nat × R)) (outs : Nat → Nat → R) : Nat → Nat → R :=
  rows.foldl (fun outs row =>
    Function.update outs row.1
      (addWeighted x (fun _ => cols) (xb row.1) (outs row.1) (e, row.2))) outs

def expertRound (outs : Nat → Nat → R) (e : Nat) : Nat → Nat → R :=
  let rows := gather n sel selw e
  if rows.isEmpty then outs else scatterRows x xb rows.length e rows outs

/-- `moe_ffn_grouped`, behind the router. -/
def moeFfnGrouped (ne : Nat) : Nat → Nat → R :=
  (List.range ne).foldl (expertRound x n sel selw xb) fun _ _ => 0

/-- How many tokens have an expert. -/
def crowd (e : Nat) : Nat := (gather n sel selw e).length

end Batch

/-- A token's experts in the order of their numbers. -/
def ascending (ne : Nat) (sel : List Nat) (selw : List R) : List (Nat × R) :=
  (List.range ne).filterMap fun e => (slotOf sel selw e).map fun w => (e, w)

section Whole

variable [One R] [Sub R] [Div R] [Neg R]

/-- `moe_ffn`: a single token goes its own way. -/
def moeFfn (f : Floats R) (r : Router R) (x : Experts R) (logits : (Nat → R) → Nat → R) (n : Nat)
    (xb : Nat → Nat → R) : Nat → Nat → R :=
  let route := fun b => moeRoute f r (logits (xb b))
  if n ≤ 1 then Function.update xb 0 (moeFfnToken x (route 0).1 (route 0).2 (xb 0))
  else fun b =>
    if b < n then
      moeFfnGrouped x n (fun b => (route b).1) (fun b => (route b).2) xb r.ne b
    else xb b

end Whole

/-! ## What comes to one token -/

section Rows

variable (x : Experts R) {n : Nat} (sel : Nat → List Nat) (selw : Nat → List R)
  (xb : Nat → Nat → R)

/-- Every token has at most one row of an expert, and no row touches another token. -/
theorem scatter_rows_row (cols e : Nat) (outs : Nat → Nat → R) (b : Nat) :
    scatterRows x xb cols e (gather n sel selw e) outs b =
      if b < n then
        match slotOf (sel b) (selw b) e with
        | none => outs b
        | some w => addWeighted x (fun _ => cols) (xb b) (outs b) (e, w)
      else outs b := by
  induction n with
  | zero => rfl
  | succ n induction =>
      unfold gather scatterRows at induction ⊢
      rw [List.range_succ, List.filterMap_append, List.foldl_append]
      by_cases here : b = n
      · subst here
        rw [if_neg (Nat.lt_irrefl b)] at induction
        rw [if_pos (Nat.lt_succ_self b)]
        cases slot : slotOf (sel b) (selw b) e with
        | none =>
            simp only [List.filterMap_cons, slot, Option.map_none, List.filterMap_nil,
              List.foldl_nil]
            exact induction
        | some w =>
            simp only [List.filterMap_cons, slot, Option.map_some, List.filterMap_nil,
              List.foldl_cons, List.foldl_nil, Function.update_self]
            rw [induction]
      · have same : (b < n + 1) = (b < n) := by
          apply propext
          omega
        simp only [same]
        rw [← induction]
        cases slot : slotOf (sel n) (selw n) e with
        | none =>
            simp only [List.filterMap_cons, slot, Option.map_none, List.filterMap_nil,
              List.foldl_nil]
        | some w =>
            simp only [List.filterMap_cons, slot, Option.map_some, List.filterMap_nil,
              List.foldl_cons, List.foldl_nil]
            rw [Function.update_of_ne here]

/-- A token's output after some of the experts. -/
theorem rounds_row (ne : Nat) {b : Nat} (inside : b < n) :
    moeFfnGrouped x n sel selw xb ne b =
      (ascending ne (sel b) (selw b)).foldl (addWeighted x (crowd n sel selw) (xb b))
        fun _ => 0 := by
  unfold moeFfnGrouped ascending
  induction ne with
  | zero => rfl
  | succ ne induction =>
      rw [List.range_succ, List.foldl_append, List.filterMap_append, List.foldl_append,
        ← induction, List.foldl_cons, List.foldl_nil]
      unfold expertRound
      simp only
      cases slot : slotOf (sel b) (selw b) ne with
      | none =>
          simp only [List.filterMap_cons, slot, Option.map_none, List.filterMap_nil,
            List.foldl_nil]
          by_cases empty : (gather n sel selw ne).isEmpty = true
          · rw [if_pos empty]
          · rw [if_neg empty, scatter_rows_row, if_pos inside, slot]
      | some w =>
          simp only [List.filterMap_cons, slot, Option.map_some, List.filterMap_nil,
            List.foldl_cons, List.foldl_nil]
          have some' : ¬(gather n sel selw ne).isEmpty = true := by
            intro empty
            rw [List.isEmpty_iff] at empty
            have among : (b, w) ∈ gather n sel selw ne := by
              unfold gather
              rw [List.mem_filterMap]
              exact ⟨b, List.mem_range.mpr inside, by rw [slot]; rfl⟩
            rw [empty] at among
            cases among
          rw [if_neg some', scatter_rows_row, if_pos inside, slot]
          rfl

end Rows

/-! ## The order of the experts -/

section Order

omit [LinearOrder R] [Zero R] [Add R] [Mul R]

theorem zip_firsts (sel : List Nat) (selw : List R) :
    ((sel.zip selw).map Prod.fst).Sublist sel := by
  induction sel generalizing selw with
  | nil => exact List.Sublist.refl []
  | cons e sel induction =>
      cases selw with
      | nil => exact List.nil_sublist _
      | cons w selw =>
          rw [List.zip_cons_cons, List.map_cons]
          exact (induction selw).cons_cons e

theorem slot_of_mem {sel : List Nat} {selw : List R} (nodup : sel.Nodup) {e : Nat} {w : R} :
    slotOf sel selw e = some w ↔ (e, w) ∈ sel.zip selw := by
  have firsts := List.Nodup.sublist (zip_firsts sel selw) nodup
  unfold slotOf
  constructor
  · intro found
    obtain ⟨slot, first, same⟩ := Option.map_eq_some_iff.mp found
    have among := List.mem_of_find?_eq_some first
    have named := List.find?_some first
    rw [beq_iff_eq] at named
    rw [← named, ← same]
    exact among
  · intro among
    cases first : (sel.zip selw).find? fun slot => slot.1 == e with
    | none =>
        rw [List.find?_eq_none] at first
        exact absurd (beq_self_eq_true e) (first (e, w) among)
    | some slot =>
        have among' := List.mem_of_find?_eq_some first
        have named := List.find?_some first
        rw [beq_iff_eq] at named
        have same : slot = (e, w) :=
          List.inj_on_of_nodup_map firsts among' among named
        rw [same]
        rfl

theorem ascending_perm {ne : Nat} {sel : List Nat} {selw : List R} (nodup : sel.Nodup)
    (inside : ∀ e ∈ sel, e < ne) : (ascending ne sel selw).Perm (sel.zip selw) := by
  have zipped : (sel.zip selw).Nodup :=
    List.Nodup.of_map Prod.fst (List.Nodup.sublist (zip_firsts sel selw) nodup)
  have sorted : (ascending ne sel selw).Nodup := by
    unfold ascending
    apply List.Nodup.filterMap _ List.nodup_range
    intro e e' slot first second
    obtain ⟨w, _, same⟩ := Option.map_eq_some_iff.mp first
    obtain ⟨w', _, same'⟩ := Option.map_eq_some_iff.mp second
    exact congrArg Prod.fst (same.trans same'.symm)
  rw [List.perm_ext_iff_of_nodup sorted zipped]
  intro slot
  unfold ascending
  rw [List.mem_filterMap]
  constructor
  · intro among
    obtain ⟨e, _, found⟩ := among
    obtain ⟨w, first, same⟩ := Option.map_eq_some_iff.mp found
    rw [← same]
    exact (slot_of_mem nodup).mp first
  · intro among
    refine ⟨slot.1, List.mem_range.mpr (inside slot.1 (List.of_mem_zip among).1), ?_⟩
    rw [(slot_of_mem nodup).mpr among]
    rfl

end Order

/-! ## The batch is its tokens -/

section Batched

variable [One R] [Sub R] [Div R] [Neg R] {f : Floats R} {r : Router R} {x : Experts R}
  {logits : (Nat → R) → Nat → R} {n : Nat} {xb : Nat → Nat → R}

/-- In a batch, what comes to a token is the sum over its own experts in the order of their
numbers, each with the kernel for as many columns as tokens have it. Where the kernels agree
and the order of a sum does not matter, it is what the token alone gets, expert after expert
in the order of the router. -/
theorem batch_is_its_tokens (several : 1 < n)
    (sound : ∀ b < n, Sound f r (gate f r (biased r.gateInpB (logits (xb b))))) :
    let route := fun b => moeRoute f r (logits (xb b))
    ∀ b < n,
      moeFfn f r x logits n xb b =
          (ascending r.ne (route b).1 (route b).2).foldl
            (addWeighted x (crowd n (fun b => (route b).1) (fun b => (route b).2)) (xb b))
            (fun _ => 0) ∧
        ((∀ cols which e y, x.matvec cols which e y = x.matvec 1 which e y) →
          (∀ a b c : R, a + b + c = a + c + b) →
            moeFfn f r x logits n xb b = moeFfn f r x logits 1 (fun _ => xb b) 0) := by
  intro route b inside
  have grouped : moeFfn f r x logits n xb b =
      (ascending r.ne (route b).1 (route b).2).foldl
        (addWeighted x (crowd n (fun b => (route b).1) (fun b => (route b).2)) (xb b))
        (fun _ => 0) := by
    unfold moeFfn
    simp only
    rw [if_neg (Nat.not_le_of_lt several), if_pos inside, rounds_row _ _ _ _ _ inside]
  refine ⟨grouped, ?_⟩
  intro oneKernel order
  obtain ⟨routed, length, nodup, below⟩ := route_takes_the_best (logits (xb b)) (sound b inside)
  have first : (route b).1 =
      selected f r (gate f r (biased r.gateInpB (logits (xb b)))) := congrArg Prod.fst routed
  have plain : addWeighted x (crowd n (fun b => (route b).1) (fun b => (route b).2)) (xb b) =
      addWeighted x (fun _ => 1) (xb b) := by
    funext out slot i
    unfold addWeighted expertOut hidden
    simp only [oneKernel (crowd n (fun b => (route b).1) (fun b => (route b).2) slot.1)]
  have swaps : RightCommutative (addWeighted x (fun _ => 1) (xb b)) := by
    constructor
    intro out slot slot'
    funext i
    exact order _ _ _
  have perm : (ascending r.ne (route b).1 (route b).2).Perm ((route b).1.zip (route b).2) := by
    apply ascending_perm
    · rw [first]
      exact nodup
    · intro e among
      rw [first] at among
      exact below e among
  rw [grouped, plain, perm.foldl_eq]
  unfold moeFfn moeFfnToken
  simp only
  rw [if_pos (Nat.le_refl 1), Function.update_self]

end Batched

/-- Experts that scale by their number. -/
def scalingExperts : Experts Int where
  nEmbd := 4
  nff := 4
  matvec _ _ e y i := (e + 1) * y i
  ffnRelu2 := false
  gateB := none
  upB := some fun i => i
  downB := none
  gatedAct g u := g + u

theorem batch_is_its_tokens_pair :
    moeFfn wholeFloats twoGroups scalingExperts id 2 fourLogits 1 =
      moeFfn wholeFloats twoGroups scalingExperts id 1 (fun _ => fourLogits 1) 0 :=
  (batch_is_its_tokens (by decide) four_logits_sound 1 (by decide)).2
    (fun _ _ _ _ => rfl) Int.add_right_comm

end GridcoreRunner.Model.Moe
