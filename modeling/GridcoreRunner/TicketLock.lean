import Mathlib.Data.Set.Card
import Mathlib.Tactic.Common

/-!
# Ticket locks

Whoever comes takes the next ticket and enters when it is served; whoever leaves serves the next
one. The counters wrap at a modulus. While fewer wait than the modulus counts, the waiting stand
in one queue, in the order of their tickets, behind whoever is inside.
-/

namespace TicketLock

set_option autoImplicit false

variable {T : Type*}

inductive Stage where
  | out
  | queued (ticket : Nat)
  | inside
  deriving Repr, DecidableEq

/-- The counters, where everyone is, and in which order tickets were taken and turns granted. -/
structure Lock (T : Type*) where
  next : Nat
  serving : Nat
  stage : T → Stage
  taken : List T
  granted : List T

def Lock.waiting (l : Lock T) : Set T := { t | ∃ ticket, l.stage t = .queued ticket }

/-- Who is inside, and who waits in which order. -/
structure Ordered (modulus : Nat) (l : Lock T) (holder : Option T) (queue : List T) : Prop where
  nodup : queue.Nodup
  small : l.serving < modulus
  next : l.next = (l.serving + holder.toList.length + queue.length) % modulus
  short : queue.length < modulus
  inside : ∀ t, l.stage t = .inside ↔ holder = some t
  queued : ∀ i t, queue[i]? = some t →
    l.stage t = .queued ((l.serving + holder.toList.length + i) % modulus)
  listed : ∀ t ticket, l.stage t = .queued ticket → t ∈ queue
  order : l.taken = l.granted ++ queue

variable {modulus : Nat} {l : Lock T} {holder : Option T} {queue : List T}

theorem Ordered.waits (ordered : Ordered modulus l holder queue) {t : T} (member : t ∈ queue) :
    ∃ ticket, l.stage t = .queued ticket := by
  obtain ⟨i, place⟩ := List.mem_iff_getElem?.mp member
  exact ⟨_, ordered.queued i t place⟩

theorem ordered_start {start : Nat} (small : start < modulus) :
    Ordered modulus ⟨start, start, fun _ : T => .out, [], []⟩ none [] := by
  constructor
  · exact List.nodup_nil
  · exact small
  · exact (Nat.mod_eq_of_lt small).symm
  · exact Nat.lt_of_le_of_lt (Nat.zero_le start) small
  · intro t
    simp
  · intro i t place
    cases place
  · intro t ticket queued
    cases queued
  · rfl

/-- The ticket served is the first of the queue, and nobody is inside. -/
theorem Ordered.first (ordered : Ordered modulus l holder queue) {t : T}
    (served : l.stage t = .queued l.serving) : holder = none ∧ ∃ rest, queue = t :: rest := by
  obtain ⟨i, place⟩ := List.mem_iff_getElem?.mp (ordered.listed t _ served)
  have ticket := ordered.queued i t place
  rw [served] at ticket
  have early : i < queue.length := by
    by_contra late
    rw [List.getElem?_eq_none (Nat.le_of_not_lt late)] at place
    cases place
  have short := ordered.short
  have small := ordered.small
  have most : holder.toList.length ≤ 1 := by
    cases holder <;> simp
  have same : l.serving = (l.serving + holder.toList.length + i) % modulus :=
    Stage.queued.inj ticket
  have zero : holder.toList.length + i = 0 := by
    by_contra some_
    by_cases wrapped : modulus ≤ l.serving + holder.toList.length + i
    · rw [Nat.mod_eq_sub_mod wrapped, Nat.mod_eq_of_lt (by omega)] at same
      omega
    · rw [Nat.mod_eq_of_lt (by omega)] at same
      omega
  constructor
  · cases holder with
    | none => rfl
    | some u => simp at zero
  · have first : i = 0 := by omega
    rw [first] at place
    cases queue with
    | nil => cases place
    | cons u rest =>
        cases place
        exact ⟨rest, rfl⟩

theorem Ordered.exclusive (ordered : Ordered modulus l holder queue) {t u : T}
    (first : l.stage t = .inside) (second : l.stage u = .inside) : t = u :=
  Option.some.inj (((ordered.inside t).mp first).symm.trans ((ordered.inside u).mp second))

/-- Turns are granted in the order of the tickets. -/
theorem Ordered.fair (ordered : Ordered modulus l holder queue) : l.granted <+: l.taken :=
  ⟨queue, ordered.order.symm⟩

/-! ## Coming and going -/

variable [DecidableEq T]

def Lock.take (modulus : Nat) (l : Lock T) (t : T) : Lock T where
  next := (l.next + 1) % modulus
  serving := l.serving
  stage := Function.update l.stage t (.queued l.next)
  taken := l.taken ++ [t]
  granted := l.granted

def Lock.enter (l : Lock T) (t : T) : Lock T where
  next := l.next
  serving := l.serving
  stage := Function.update l.stage t .inside
  taken := l.taken
  granted := l.granted ++ [t]

def Lock.leave (modulus : Nat) (l : Lock T) (t : T) : Lock T where
  next := l.next
  serving := (l.serving + 1) % modulus
  stage := Function.update l.stage t .out
  taken := l.taken
  granted := l.granted

@[simp]
theorem take_stage_self (l : Lock T) (t : T) : (l.take modulus t).stage t = .queued l.next :=
  Function.update_self t _ l.stage

theorem take_stage_other (l : Lock T) {t u : T} (other : u ≠ t) :
    (l.take modulus t).stage u = l.stage u := Function.update_of_ne other _ l.stage

@[simp]
theorem enter_stage_self (l : Lock T) (t : T) : (l.enter t).stage t = .inside :=
  Function.update_self t _ l.stage

theorem enter_stage_other (l : Lock T) {t u : T} (other : u ≠ t) :
    (l.enter t).stage u = l.stage u := Function.update_of_ne other _ l.stage

@[simp]
theorem leave_stage_self (l : Lock T) (t : T) : (l.leave modulus t).stage t = .out :=
  Function.update_self t _ l.stage

theorem leave_stage_other (l : Lock T) {t u : T} (other : u ≠ t) :
    (l.leave modulus t).stage u = l.stage u := Function.update_of_ne other _ l.stage

/-- A newcomer stands at the end of the queue, as long as that stays shorter than the modulus. -/
theorem Ordered.take (ordered : Ordered modulus l holder queue) {t : T} (out : l.stage t = .out)
    (few : (l.take modulus t).waiting.encard < modulus) :
    Ordered modulus (l.take modulus t) holder (queue ++ [t]) := by
  have absent : t ∉ queue := by
    intro member
    obtain ⟨ticket, queued⟩ := ordered.waits member
    rw [out] at queued
    cases queued
  have nodup : (queue ++ [t]).Nodup := by
    rw [List.nodup_append_comm, List.singleton_append]
    exact List.nodup_cons.mpr ⟨absent, ordered.nodup⟩
  have other {u : T} (member : u ∈ queue) : (l.take modulus t).stage u = l.stage u := by
    apply take_stage_other
    intro same
    exact absent (same ▸ member)
  have short : (queue ++ [t]).length < modulus := by
    have inQueue : (↑(queue ++ [t]).toFinset : Set T) ⊆ (l.take modulus t).waiting := by
      intro u member
      rcases List.mem_append.mp (List.mem_toFinset.mp member) with early | last
      · obtain ⟨ticket, queued⟩ := ordered.waits early
        exact ⟨ticket, (other early).trans queued⟩
      · rw [List.mem_singleton.mp last]
        exact ⟨l.next, take_stage_self l t⟩
    have size := Set.encard_le_encard inQueue
    rw [Set.encard_coe_eq_coe_finsetCard, List.toFinset_card_of_nodup nodup] at size
    exact_mod_cast size.trans_lt few
  constructor
  · exact nodup
  · exact ordered.small
  · rw [Lock.take, ordered.next, List.length_append, List.length_singleton]
    dsimp only
    rw [Nat.mod_add_mod, Nat.add_assoc _ queue.length 1]
  · exact short
  · intro u
    rw [← ordered.inside u]
    by_cases same : u = t
    · rw [same, take_stage_self, out]
      simp
    · rw [take_stage_other l same]
  · intro i u place
    by_cases early : i < queue.length
    · rw [List.getElem?_append_left early] at place
      exact (other (List.mem_of_getElem? place)).trans (ordered.queued i u place)
    · rw [List.getElem?_append_right (Nat.le_of_not_lt early)] at place
      have last : i - queue.length = 0 := by
        by_contra later
        rw [List.getElem?_eq_none (by rw [List.length_singleton]; omega)] at place
        cases place
      rw [last] at place
      cases place
      have here : i = queue.length := by omega
      rw [take_stage_self, ordered.next, here]
      rfl
  · intro u ticket queued
    by_cases same : u = t
    · rw [same]
      exact List.mem_append_right queue (List.mem_singleton_self t)
    · rw [take_stage_other l same] at queued
      exact List.mem_append_left [t] (ordered.listed u ticket queued)
  · rw [Lock.take, ordered.order, List.append_assoc]

theorem Ordered.enter (ordered : Ordered modulus l holder queue) {t : T}
    (served : l.stage t = .queued l.serving) :
    ∃ rest, Ordered modulus (l.enter t) (some t) rest := by
  obtain ⟨nobody, rest, shape⟩ := ordered.first served
  subst nobody shape
  refine ⟨rest, ?_⟩
  have absent := (List.nodup_cons.mp ordered.nodup).1
  have short := ordered.short
  rw [List.length_cons] at short
  constructor
  · exact (List.nodup_cons.mp ordered.nodup).2
  · exact ordered.small
  · have next := ordered.next
    rw [List.length_cons] at next
    rw [Lock.enter, next]
    simp only [Option.toList_none, List.length_nil, Option.toList_some, List.length_singleton]
    congr 1
    omega
  · omega
  · intro u
    by_cases same : u = t
    · rw [same, enter_stage_self]
      simp
    · rw [enter_stage_other l same, ordered.inside u]
      simp [Ne.symm same]
  · intro i u place
    have behind := ordered.queued (i + 1) u place
    have other : u ≠ t := fun same => absent (same ▸ List.mem_of_getElem? place)
    rw [enter_stage_other l other, behind, Lock.enter]
    simp only [Option.toList_none, List.length_nil, Option.toList_some, List.length_singleton]
    congr 2
    omega
  · intro u ticket queued
    by_cases same : u = t
    · rw [same, enter_stage_self] at queued
      cases queued
    · rw [enter_stage_other l same] at queued
      rcases List.mem_cons.mp (ordered.listed u ticket queued) with first | later
      · exact absurd first same
      · exact later
  · rw [Lock.enter, ordered.order, List.append_assoc]
    rfl

theorem Ordered.leave (ordered : Ordered modulus l holder queue) {t : T}
    (inside : l.stage t = .inside) : Ordered modulus (l.leave modulus t) none queue := by
  have held : holder = some t := (ordered.inside t).mp inside
  subst held
  have positive : 0 < modulus := Nat.lt_of_le_of_lt (Nat.zero_le _) ordered.small
  have other {u : T} (ticket : Nat) (queued : l.stage u = .queued ticket) :
      (l.leave modulus t).stage u = l.stage u := by
    apply leave_stage_other
    intro same
    rw [same, inside] at queued
    cases queued
  constructor
  · exact ordered.nodup
  · exact Nat.mod_lt _ positive
  · rw [Lock.leave, ordered.next]
    simp
  · exact ordered.short
  · intro u
    by_cases same : u = t
    · rw [same, leave_stage_self]
      simp
    · rw [leave_stage_other l same, ordered.inside u]
      simp [Ne.symm same]
  · intro i u place
    have queued := ordered.queued i u place
    rw [other _ queued, queued, Lock.leave]
    simp
  · intro u ticket queued
    by_cases same : u = t
    · rw [same, leave_stage_self] at queued
      cases queued
    · rw [leave_stage_other l same] at queued
      exact ordered.listed u ticket queued
  · exact ordered.order

end TicketLock
