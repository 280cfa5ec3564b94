import GridcoreRunner.Extract
import Mathlib.Algebra.Ring.Int.Defs
import Mathlib.Data.List.Perm.Subperm
import Mathlib.Logic.Function.Basic

/-!
# The router of a mixture of experts

`moe_route`: from the logits of one token to its experts and their weights. Floats are any
ordered type with the operations; what is not ordered, a NaN, is left out. The selection scores may
be biased and whole groups of experts may be masked, and where neither is so, the scores are the
array of the probabilities itself and the selection writes into it.
-/

namespace GridcoreRunner.Model.Moe

set_option autoImplicit false

open Extract

/-- `expert_gating`. -/
inductive Gating where
  | softmax
  | sigmoid
  | softmaxWeight
  | sqrtSoftplus
  deriving DecidableEq, Repr

/-- The functions and constants of floats; `lowest` is `-FLT_MAX`, `tiny` the smallest normal
half. -/
structure Floats (R : Type*) where
  expf : R → R
  sqrtf : R → R
  log1pf : R → R
  lowest : R
  tiny : R
  twenty : R

/-- What `moe_route` reads of the model and of the layer. -/
structure Router (R : Type*) where
  ne : Nat
  used : Nat
  gating : Gating
  gateInpB : Option (Nat → R)
  expProbsB : Option (Nat → R)
  nExpertGroups : Nat
  nGroupUsed : Nat
  expertNormW : Bool
  expertWScale : R

variable {R : Type*}

/-- `probs`, and `scores` where it is an array of its own. -/
structure Tables (R : Type*) where
  probs : Nat → R
  own : Option (Nat → R)

def Tables.scores (t : Tables R) : Nat → R := t.own.getD t.probs

def Tables.mask (t : Tables R) (lowest : R) (e : Nat) : Tables R :=
  match t.own with
  | none => { t with probs := Function.update t.probs e lowest }
  | some scores => { t with own := some (Function.update scores e lowest) }

theorem mask_scores (t : Tables R) (lowest : R) (e : Nat) :
    (t.mask lowest e).scores = Function.update t.scores e lowest := by
  unfold Tables.mask Tables.scores
  cases t.own with
  | none => rfl
  | some scores => rfl

theorem mask_probs (t : Tables R) (lowest : R) {e other : Nat} (apart : other ≠ e) :
    (t.mask lowest e).probs other = t.probs other := by
  unfold Tables.mask
  cases t.own with
  | none => exact Function.update_of_ne apart lowest t.probs
  | some scores => rfl

variable [LinearOrder R]

/-! ## Gating -/

section Gating

variable [Zero R] [One R] [Add R] [Sub R] [Mul R] [Div R] [Neg R]

/-- The largest of a list, from its first on. -/
def largest (xs : List R) : R :=
  xs.tail.foldl (fun mx x => if mx < x then x else mx) (xs.headD 0)

/-- Exponentials against the largest, over their sum. -/
def softmax (f : Floats R) (xs : List R) : List R :=
  let p := xs.map fun x => f.expf (x - largest xs)
  p.map (· / p.foldl (· + ·) 0)

def biased (bias : Option (Nat → R)) (xs : Nat → R) : Nat → R :=
  match bias with
  | none => xs
  | some b => fun e => xs e + b e

/-- From logits to probabilities. -/
def gate (f : Floats R) (r : Router R) (logits : Nat → R) : Nat → R :=
  match r.gating with
  | .sigmoid => fun e => 1 / (1 + f.expf (-logits e))
  | .sqrtSoftplus => fun e =>
      f.sqrtf (if f.twenty < logits e then logits e else f.log1pf (f.expf (logits e)))
  | .softmaxWeight => logits
  | .softmax => fun e => (softmax f ((List.range r.ne).map logits)).getD e 0

/-- The weights of the experts that are selected. -/
def weigh (f : Floats R) (r : Router R) (selw : List R) (denom : R) : List R :=
  let normed :=
    if r.gating = .softmaxWeight then softmax f selw
    else if r.expertNormW then
      let denom := if denom < f.tiny then f.tiny else denom
      selw.map (· / denom)
    else selw
  if r.expertWScale ≠ 0 ∧ r.expertWScale ≠ 1 then normed.map (· * r.expertWScale) else normed

end Gating

/-! ## Groups -/

section Groups

variable [Zero R] [Add R]

/-- The two largest scores of a group, and their sum. -/
def groupScore (f : Floats R) (per : Nat) (scores : Nat → R) (gi : Nat) : R :=
  let best := (List.range per).foldl
    (fun (b : R × R) k =>
      let score := scores (gi * per + k)
      if b.1 < score then (score, b.1) else if b.2 < score then (b.1, score) else b)
    (f.lowest, f.lowest)
  best.1 + if 1 < per then best.2 else 0

/-- Whether an expert is in a group. -/
def inGroup (per gi e : Nat) : Bool := decide (gi * per ≤ e ∧ e < (gi + 1) * per)

/-- The loop that masks the worst groups. A sweep over the groups that are not yet masked holds
the first of the worst. -/
def dropGroups (f : Floats R) (groups per : Nat) : Nat → (Nat → R) → (Nat → R) → Nat → R
  | 0, _, scores => scores
  | k + 1, gs, scores =>
      match sweep gs (fun gi => gs gi != f.lowest) groups with
      | none => scores
      | some worst =>
          dropGroups f groups per k (Function.update gs worst f.lowest) fun e =>
            if inGroup per worst e then f.lowest else scores e

/-! ## The selection -/

/-- The selection scores. -/
def tables (f : Floats R) (r : Router R) (probs : Nat → R) : Tables R :=
  if r.expProbsB.isSome ∨ 1 < r.nExpertGroups then
    let scores := fun e => probs e + match r.expProbsB with
      | none => 0
      | some b => b e
    let per := r.ne / r.nExpertGroups
    if 1 < r.nExpertGroups then
      ⟨probs, some (dropGroups f r.nExpertGroups per (r.nExpertGroups - r.nGroupUsed)
        (groupScore f per scores) scores)⟩
    else ⟨probs, some scores⟩
  else ⟨probs, none⟩

/-- The first of the largest scores over `lowest`, or else the first expert. -/
def bestExpert (f : Floats R) (ne : Nat) (scores : Nat → R) : Nat :=
  ((List.range ne).foldl (fun (b : Nat × R) e => if b.2 < scores e then (e, scores e) else b)
    (0, f.lowest)).1

structure Picks (R : Type*) where
  tables : Tables R
  sel : List Nat
  selw : List R
  denom : R

def pick (f : Floats R) (ne : Nat) (p : Picks R) : Picks R :=
  let best := bestExpert f ne p.tables.scores
  let w := p.tables.probs best
  { tables := p.tables.mask f.lowest best
    sel := p.sel ++ [best]
    selw := p.selw ++ [w]
    denom := p.denom + w }

def picks (f : Floats R) (ne : Nat) : Nat → Picks R → Picks R
  | 0, p => p
  | t + 1, p => picks f ne t (pick f ne p)

section Route

variable [One R] [Sub R] [Mul R] [Div R] [Neg R]

/-- `moe_route`, from the product of the router's matrix with the token. -/
def moeRoute (f : Floats R) (r : Router R) (logits : Nat → R) : List Nat × List R :=
  let probs := gate f r (biased r.gateInpB logits)
  let p := picks f r.ne r.used ⟨tables f r probs, [], [], 0⟩
  (p.sel, weigh f r p.selw p.denom)

end Route

/-! ## What is selected -/

section Ranking

variable (f : Floats R) (r : Router R) (probs : Nat → R)

/-- What an expert is selected by. -/
def selectionScore : Nat → R :=
  if r.expProbsB.isSome ∨ 1 < r.nExpertGroups then fun e => probs e + match r.expProbsB with
    | none => 0
    | some b => b e
  else probs

/-- The groups that are left out: the worst ones. -/
def dropped : List Nat :=
  if 1 < r.nExpertGroups then
    (ranked (groupScore f (r.ne / r.nExpertGroups) (selectionScore r probs))
      (List.range r.nExpertGroups)).take (r.nExpertGroups - r.nGroupUsed)
  else []

/-- Experts whose group is kept. -/
def kept : List Nat :=
  (List.range r.ne).filter fun e =>
    (dropped f r probs).all fun gi => !inGroup (r.ne / r.nExpertGroups) gi e

/-- The best of them, the largest score first. -/
def selected : List Nat :=
  (ranked (fun e => OrderDual.toDual (selectionScore r probs e)) (kept f r probs)).take r.used

/-- Scores and group scores are numbers over `-FLT_MAX`, and the groups that are kept hold enough
experts. -/
structure Sound : Prop where
  scores : ∀ e < r.ne, f.lowest < selectionScore r probs e
  groups : 1 < r.nExpertGroups → ∀ gi < r.nExpertGroups,
    groupScore f (r.ne / r.nExpertGroups) (selectionScore r probs) gi ≠ f.lowest
  enough : r.used ≤ r.ne
  enoughKept : 1 < r.nExpertGroups → r.nGroupUsed ≤ r.nExpertGroups ∧
    r.used ≤ r.nGroupUsed * (r.ne / r.nExpertGroups)

end Ranking

end Groups

/-! ## The sweeps of the selection -/

section Sweeps

variable (f : Floats R)

/-- What the selection can pick. -/
def live (scores : Nat → R) (e : Nat) : Bool := decide (f.lowest < scores e)

def dual (scores : Nat → R) (e : Nat) : OrderDual R := OrderDual.toDual (scores e)

theorem best_expert_held (scores : Nat → R) (n : Nat) :
    (List.range n).foldl (fun (b : Nat × R) e => if b.2 < scores e then (e, scores e) else b)
        (0, f.lowest) =
      match sweep (dual scores) (live f scores) n with
      | none => (0, f.lowest)
      | some b => (b, scores b) := by
  induction n with
  | zero => rfl
  | succ n induction =>
      rw [List.range_succ, List.foldl_append, induction, sweep_succ, List.foldl_cons,
        List.foldl_nil]
      obtain ⟨nothing, _⟩ | ⟨b, _, held, fine, _⟩ := sweep_spec (dual scores) (live f scores) n
      · rw [nothing]
        unfold sweepStep live better
        simp only [Bool.and_true, decide_eq_true_eq]
        by_cases over' : f.lowest < scores n
        · rw [if_pos over', if_pos over']
        · rw [if_neg over', if_neg over']
      · rw [held]
        have low : f.lowest < scores b := of_decide_eq_true fine
        unfold sweepStep live better dual
        simp only [Bool.and_eq_true, decide_eq_true_eq, OrderDual.toDual_lt_toDual]
        by_cases more : scores b < scores n
        · rw [if_pos more, if_pos ⟨lt_trans low more, more⟩]
        · rw [if_neg more, if_neg (fun both => more both.2)]

theorem best_expert_sweep {scores : Nat → R} {n b : Nat}
    (held : sweep (dual scores) (live f scores) n = some b) : bestExpert f n scores = b := by
  unfold bestExpert
  rw [best_expert_held, held]

theorem extract_mem {K : Type*} [LinearOrder K] {key : Nat → K} {n k e : Nat}
    {eligible : Nat → Bool} (among : e ∈ extract key n k eligible) : e < n ∧ eligible e = true := by
  rw [extract_ranked] at among
  have inside := (ranked_perm key _).subset (List.mem_of_mem_take among)
  obtain ⟨range, able⟩ := List.mem_filter.mp inside
  exact ⟨List.mem_range.mp range, able⟩

/-- The rounds pick what the sweeps extract; the weights are the probabilities before any
round, also where the rounds write into them. -/
theorem picks_extract [Add R] {n t : Nat} {p : Picks R} {out : List Nat}
    (picked : extract (dual p.tables.scores) n t (live f p.tables.scores) = out)
    (enough : out.length = t) :
    (picks f n t p).sel = p.sel ++ out ∧
      (picks f n t p).selw = p.selw ++ out.map p.tables.probs ∧
      (picks f n t p).denom = (out.map p.tables.probs).foldl (· + ·) p.denom := by
  induction t generalizing p out with
  | zero =>
      rw [List.length_eq_zero_iff] at enough
      subst enough
      simp only [picks, List.append_nil, List.map_nil, List.foldl_nil, and_self]
  | succ t induction =>
      rw [extract] at picked
      cases held : sweep (dual p.tables.scores) (live f p.tables.scores) n with
      | none =>
          rw [held] at picked
          rw [← picked] at enough
          cases enough
      | some b =>
          simp only [held] at picked
          have best := best_expert_sweep f held
          have masked : (pick f n p).tables.scores =
              Function.update p.tables.scores b f.lowest := by
            unfold pick
            rw [best]
            exact mask_scores p.tables f.lowest b
          have able : ∀ e, live f (pick f n p).tables.scores e =
              (live f p.tables.scores e && e != b) := by
            intro e
            rw [masked]
            unfold live
            by_cases same : e = b
            · rw [same, Function.update_self]
              simp
            · rw [Function.update_of_ne same]
              simp [same]
          have rest : extract (dual (pick f n p).tables.scores) n t
              (live f (pick f n p).tables.scores) =
                extract (dual p.tables.scores) n t
                  (fun e => live f p.tables.scores e && e != b) := by
            apply extract_congr
            · intro e _
              exact able e
            · intro e _ stays
              rw [able, Bool.and_eq_true] at stays
              unfold dual
              rw [masked, Function.update_of_ne (bne_iff_ne.mp stays.2)]
          have fewer : (extract (dual p.tables.scores) n t
              (fun e => live f p.tables.scores e && e != b)).length = t := by
            rw [← picked, List.length_cons] at enough
            omega
          have probs : (extract (dual p.tables.scores) n t
              (fun e => live f p.tables.scores e && e != b)).map (pick f n p).tables.probs =
                (extract (dual p.tables.scores) n t
                  (fun e => live f p.tables.scores e && e != b)).map p.tables.probs := by
            apply List.map_congr_left
            intro e among
            have stays := (extract_mem among).2
            rw [Bool.and_eq_true] at stays
            unfold pick
            rw [best]
            exact mask_probs p.tables f.lowest (bne_iff_ne.mp stays.2)
          obtain ⟨sel, selw, denom⟩ := induction rest fewer
          rw [probs] at selw denom
          rw [picks, sel, selw, denom, ← picked]
          unfold pick
          rw [best]
          simp only [List.append_assoc, List.singleton_append, List.map_cons, List.foldl_cons,
            and_self]

/-- The loop masks the groups that the sweeps extract. -/
theorem drop_groups_extract (groups per k : Nat) (gs scores : Nat → R) :
    dropGroups f groups per k gs scores = fun e =>
      if (extract gs groups k fun gi => gs gi != f.lowest).any (fun gi => inGroup per gi e) then
        f.lowest
      else scores e := by
  induction k generalizing gs scores with
  | zero =>
      funext e
      rw [dropGroups, extract, List.any_nil, if_neg Bool.false_ne_true]
  | succ k induction =>
      rw [dropGroups, extract]
      cases sweep gs (fun gi => gs gi != f.lowest) groups with
      | none =>
          funext e
          simp only [List.any_nil, Bool.false_eq_true, if_false]
      | some worst =>
          have able : ∀ gi, (Function.update gs worst f.lowest gi != f.lowest) =
              (gs gi != f.lowest && gi != worst) := by
            intro gi
            by_cases same : gi = worst
            · rw [same, Function.update_self]
              simp
            · rw [Function.update_of_ne same]
              simp [same]
          have rest : extract (Function.update gs worst f.lowest) groups k
              (fun gi => Function.update gs worst f.lowest gi != f.lowest) =
                extract gs groups k fun gi => gs gi != f.lowest && gi != worst := by
            apply extract_congr
            · intro gi _
              exact able gi
            · intro gi _ stays
              rw [able, Bool.and_eq_true] at stays
              exact Function.update_of_ne (bne_iff_ne.mp stays.2) f.lowest gs
          simp only
          rw [induction, rest]
          funext e
          rw [List.any_cons]
          cases (extract gs groups k fun gi => gs gi != f.lowest && gi != worst).any
              (fun gi => inGroup per gi e) with
          | true => rw [Bool.or_true, if_pos rfl, if_pos rfl]
          | false => rw [Bool.or_false, if_neg Bool.false_ne_true]

end Sweeps

/-! ## The selection is the front of the ranking -/

section Selection

variable [Zero R] [Add R] {f : Floats R} {r : Router R} {probs : Nat → R}

theorem tables_probs : (tables f r probs).probs = probs := by
  unfold tables
  by_cases own : r.expProbsB.isSome ∨ 1 < r.nExpertGroups
  · rw [if_pos own]
    simp only
    by_cases grouped : 1 < r.nExpertGroups
    · rw [if_pos grouped]
    · rw [if_neg grouped]
  · rw [if_neg own]

/-- The scores after the groups are masked. -/
theorem tables_scores (sound : Sound f r probs) (e : Nat) :
    (tables f r probs).scores e =
      if (dropped f r probs).all (fun gi => !inGroup (r.ne / r.nExpertGroups) gi e) then
        selectionScore r probs e
      else f.lowest := by
  by_cases grouped : 1 < r.nExpertGroups
  · have own : r.expProbsB.isSome ∨ 1 < r.nExpertGroups := Or.inr grouped
    have all : (List.range r.nExpertGroups).filter (fun gi =>
        groupScore f (r.ne / r.nExpertGroups) (selectionScore r probs) gi != f.lowest) =
          List.range r.nExpertGroups := by
      rw [List.filter_eq_self]
      intro gi inside
      exact bne_iff_ne.mpr (sound.groups grouped gi (List.mem_range.mp inside))
    have worst := extract_ranked
      (groupScore f (r.ne / r.nExpertGroups) (selectionScore r probs)) r.nExpertGroups
      (r.nExpertGroups - r.nGroupUsed) fun gi =>
        groupScore f (r.ne / r.nExpertGroups) (selectionScore r probs) gi != f.lowest
    rw [all] at worst
    have out : dropped f r probs = (ranked (groupScore f (r.ne / r.nExpertGroups)
        (selectionScore r probs)) (List.range r.nExpertGroups)).take
          (r.nExpertGroups - r.nGroupUsed) := by
      unfold dropped
      rw [if_pos grouped]
    have scores : (tables f r probs).scores = dropGroups f r.nExpertGroups
        (r.ne / r.nExpertGroups) (r.nExpertGroups - r.nGroupUsed)
        (groupScore f (r.ne / r.nExpertGroups) (selectionScore r probs))
        (selectionScore r probs) := by
      unfold tables selectionScore
      rw [if_pos own]
      simp only [if_pos grouped, if_pos own]
      rfl
    rw [scores, drop_groups_extract, worst, ← out]
    have any : (dropped f r probs).any (fun gi => inGroup (r.ne / r.nExpertGroups) gi e) =
        !(dropped f r probs).all (fun gi => !inGroup (r.ne / r.nExpertGroups) gi e) := by
      rw [List.not_all_eq_any_not]
      simp only [Bool.not_not]
    simp only [any]
    cases (dropped f r probs).all (fun gi => !inGroup (r.ne / r.nExpertGroups) gi e) with
    | true => rw [Bool.not_true, if_neg Bool.false_ne_true, if_pos rfl]
    | false => rw [Bool.not_false, if_pos rfl, if_neg Bool.false_ne_true]
  · have none' : dropped f r probs = [] := by
      unfold dropped
      rw [if_neg grouped]
    rw [none', List.all_nil, if_pos rfl]
    unfold tables selectionScore
    by_cases own : r.expProbsB.isSome ∨ 1 < r.nExpertGroups
    · rw [if_pos own, if_pos own]
      simp only [if_neg grouped]
      rfl
    · rw [if_neg own, if_neg own]
      rfl

theorem live_kept (sound : Sound f r probs) :
    (List.range r.ne).filter (live f (tables f r probs).scores) = kept f r probs := by
  unfold kept
  apply List.filter_congr
  intro e inside
  have low := sound.scores e (List.mem_range.mp inside)
  unfold live
  rw [tables_scores sound]
  cases (dropped f r probs).all (fun gi => !inGroup (r.ne / r.nExpertGroups) gi e) with
  | true => rw [if_pos rfl, decide_eq_true low]
  | false => rw [if_neg Bool.false_ne_true, decide_eq_false (lt_irrefl f.lowest)]

theorem extract_selected (sound : Sound f r probs) :
    extract (dual (tables f r probs).scores) r.ne r.used (live f (tables f r probs).scores) =
      selected f r probs := by
  rw [extract_ranked, live_kept sound]
  unfold selected
  rw [ranked_congr]
  intro e among
  obtain ⟨_, stays⟩ := List.mem_filter.mp among
  unfold dual
  rw [tables_scores sound, if_pos stays]

/-! ## There are enough -/

/-- No more experts than `per` are in a group. -/
theorem group_small (per gi : Nat) {places : List Nat} (nodup : places.Nodup) :
    places.length ≤ (places.filter fun e => !inGroup per gi e).length + per := by
  have split := List.length_eq_length_filter_add (l := places) fun e => inGroup per gi e
  have inside : (places.filter fun e => inGroup per gi e).length ≤
      ((List.range per).map (gi * per + ·)).length := by
    apply List.Subperm.length_le
    apply List.subperm_of_subset (nodup.filter _)
    intro e among
    obtain ⟨_, within⟩ := List.mem_filter.mp among
    have bounds := of_decide_eq_true within
    rw [Nat.add_mul, Nat.one_mul] at bounds
    rw [List.mem_map]
    refine ⟨e - gi * per, List.mem_range.mpr (by omega), by omega⟩
  rw [List.length_map, List.length_range] at inside
  omega

theorem groups_small (per : Nat) (groups : List Nat) {places : List Nat} (nodup : places.Nodup) :
    places.length ≤
      (places.filter fun e => groups.all fun gi => !inGroup per gi e).length +
        groups.length * per := by
  induction groups generalizing places with
  | nil => simp
  | cons gi groups induction =>
      have first := group_small per gi nodup
      have rest := induction (nodup.filter fun e => !inGroup per gi e)
      rw [List.filter_filter] at rest
      have same : (places.filter fun e => (groups.all fun gi => !inGroup per gi e) &&
          !inGroup per gi e) = places.filter fun e => (gi :: groups).all fun gi =>
            !inGroup per gi e := by
        apply List.filter_congr
        intro e _
        rw [List.all_cons, Bool.and_comm]
      rw [same] at rest
      rw [List.length_cons, Nat.add_mul, Nat.one_mul]
      omega

theorem kept_enough (sound : Sound f r probs) : r.used ≤ (kept f r probs).length := by
  have whole := groups_small (r.ne / r.nExpertGroups) (dropped f r probs)
    (List.nodup_range (n := r.ne))
  rw [List.length_range] at whole
  unfold kept
  by_cases grouped : 1 < r.nExpertGroups
  · obtain ⟨fewer, enough⟩ := sound.enoughKept grouped
    have out : (dropped f r probs).length ≤ r.nExpertGroups - r.nGroupUsed := by
      unfold dropped
      rw [if_pos grouped, List.length_take]
      exact Nat.min_le_left _ _
    have masked := Nat.mul_le_mul_right (r.ne / r.nExpertGroups) out
    have all := Nat.mul_div_le r.ne r.nExpertGroups
    have split : (r.nExpertGroups - r.nGroupUsed) * (r.ne / r.nExpertGroups) +
        r.nGroupUsed * (r.ne / r.nExpertGroups) = r.nExpertGroups * (r.ne / r.nExpertGroups) := by
      rw [← Nat.add_mul, Nat.sub_add_cancel fewer]
    omega
  · have none' : dropped f r probs = [] := by
      unfold dropped
      rw [if_neg grouped]
    have enough := sound.enough
    rw [none', List.length_nil, Nat.zero_mul] at whole
    rw [none']
    omega

theorem selected_length (sound : Sound f r probs) : (selected f r probs).length = r.used := by
  unfold selected
  rw [List.length_take, (ranked_perm _ _).length_eq]
  exact Nat.min_eq_left (kept_enough sound)

theorem selected_nodup (f : Floats R) (r : Router R) (probs : Nat → R) :
    (selected f r probs).Nodup := by
  unfold selected
  apply List.Nodup.sublist (List.take_sublist _ _)
  rw [(ranked_perm _ _).nodup_iff]
  exact List.nodup_range.filter _

theorem selected_mem {e : Nat} (among : e ∈ selected f r probs) : e ∈ kept f r probs :=
  (ranked_perm _ _).subset (List.mem_of_mem_take among)

end Selection

/-! ## The route -/

section Routed

variable [Zero R] [One R] [Add R] [Sub R] [Mul R] [Div R] [Neg R] {f : Floats R} {r : Router R}

/-- `moe_route` takes the best experts of the groups that are kept, the largest score first and
equal scores in the order of the experts, each once, and weighs them by their unbiased
probabilities. -/
theorem route_takes_the_best (logits : Nat → R)
    (sound : Sound f r (gate f r (biased r.gateInpB logits))) :
    let probs := gate f r (biased r.gateInpB logits)
    let sel := selected f r probs
    moeRoute f r logits =
        (sel, weigh f r (sel.map probs) ((sel.map probs).foldl (· + ·) 0)) ∧
      sel.length = r.used ∧ sel.Nodup ∧ ∀ e ∈ sel, e < r.ne := by
  have length := selected_length sound
  obtain ⟨sel, selw, denom⟩ := picks_extract f
    (p := ⟨tables f r (gate f r (biased r.gateInpB logits)), [], [], 0⟩)
    (extract_selected sound) length
  refine ⟨?_, length, selected_nodup f r _, ?_⟩
  · unfold moeRoute
    simp only [sel, selw, denom, tables_probs, List.nil_append]
  · intro e among
    exact List.mem_range.mp (List.mem_filter.mp (selected_mem among)).1

end Routed

/-- Whole numbers for floats, with a function for the exponential. -/
def wholeFloats : Floats Int where
  expf x := x
  sqrtf x := x
  log1pf x := x
  lowest := -1000
  tiny := 1
  twenty := 20

/-- Two groups of two experts, one of them to be kept. -/
def twoGroups : Router Int where
  ne := 4
  used := 2
  gating := .softmaxWeight
  gateInpB := none
  expProbsB := none
  nExpertGroups := 2
  nGroupUsed := 1
  expertNormW := true
  expertWScale := 1

/-- The best expert is in the worse group. -/
def fourLogits (b e : Nat) : Int := [3, 5, 9, -20].getD e 0 + b

theorem four_logits_sound : ∀ b < 2, Sound wholeFloats twoGroups
    (gate wholeFloats twoGroups (biased twoGroups.gateInpB (fourLogits b))) := by
  have scores : ∀ b < 2, ∀ e < 4, wholeFloats.lowest < selectionScore twoGroups
      (gate wholeFloats twoGroups (biased twoGroups.gateInpB (fourLogits b))) e := by
    decide
  have groups : ∀ b < 2, ∀ gi < 2, groupScore wholeFloats 2 (selectionScore twoGroups
      (gate wholeFloats twoGroups (biased twoGroups.gateInpB (fourLogits b)))) gi ≠
        wholeFloats.lowest := by
    decide
  intro b inside
  exact ⟨scores b inside, fun _ => groups b inside, by decide, fun _ => by decide⟩

theorem route_takes_the_best_two_groups :
    (moeRoute wholeFloats twoGroups (fourLogits 0)).1 = [1, 0] ∧
      (moeRoute wholeFloats twoGroups (fourLogits 0)).1 = selected wholeFloats twoGroups
        (gate wholeFloats twoGroups (biased twoGroups.gateInpB (fourLogits 0))) :=
  ⟨by decide, congrArg Prod.fst
    (route_takes_the_best (fourLogits 0) (four_logits_sound 0 (by decide))).1⟩

end GridcoreRunner.Model.Moe
