import Mathlib.Data.List.Basic

/-!
# Entries that come and leave

How a list became another one: an entry leaves for a reason, is marked, or comes in. The log
holds those that left, in this order, each with the entries that were there when it did.
-/

namespace GridcoreRunner

set_option autoImplicit false

variable {α ρ : Type*} {marks : α → α → Prop}

/-- An entry that left, and the entries at that moment. -/
structure Leaving (α ρ : Type*) where
  entry : α
  reason : ρ
  resident : List α

inductive Turnover (marks : α → α → Prop) : List α → List (Leaving α ρ) → List α → Prop
  | same (entries : List α) : Turnover marks entries [] entries
  | leave {entries after : List α} {log : List (Leaving α ρ)} {place : Nat} {a : α} (reason : ρ)
      (there : entries[place]? = some a)
      (later : Turnover marks (entries.eraseIdx place) log after) :
      Turnover marks entries (⟨a, reason, entries⟩ :: log) after
  | mark {entries after : List α} {log : List (Leaving α ρ)} {place : Nat} {a b : α}
      (there : entries[place]? = some a) (marked : marks a b)
      (later : Turnover marks (entries.set place b) log after) : Turnover marks entries log after
  | enter {entries after : List α} {log : List (Leaving α ρ)} (a : α)
      (later : Turnover marks (a :: entries) log after) : Turnover marks entries log after

namespace Turnover

variable {before between after : List α} {log log' : List (Leaving α ρ)}

theorem trans (first : Turnover marks before log between)
    (second : Turnover marks between log' after) : Turnover marks before (log ++ log') after := by
  induction first with
  | same entries => exact second
  | leave reason there _ induction => exact .leave reason there (induction second)
  | mark there marked _ induction => exact .mark there marked (induction second)
  | enter a _ induction => exact .enter a (induction second)

theorem entered (a : α) : Turnover marks before ([] : List (Leaving α ρ)) (a :: before) :=
  .enter a (.same _)

/-- One entry is marked. -/
theorem marked {place : Nat} {a b : α} (there : before[place]? = some a) (mark : marks a b) :
    Turnover marks before ([] : List (Leaving α ρ)) (before.set place b) :=
  .mark there mark (.same _)

/-- Entries of a part of the list leave for one reason. -/
theorem filter (marks : α → α → Prop) (reason : ρ) (leaves : α → Bool)
    (front entries back : List α) :
    ∃ log : List (Leaving α ρ),
      Turnover marks (front ++ (entries ++ back)) log
        (front ++ ((entries.filter fun a => !leaves a) ++ back)) ∧
      ∀ gone ∈ log, gone.reason = reason ∧ gone.entry ∈ entries ∧ leaves gone.entry = true := by
  induction entries generalizing front with
  | nil => exact ⟨[], .same _, fun gone never => by cases never⟩
  | cons a entries induction =>
      cases gone : leaves a with
      | true =>
          obtain ⟨log, later, reasons⟩ := induction front
          have there : (front ++ (a :: entries ++ back))[front.length]? = some a := by
            rw [List.getElem?_append_right (Nat.le_refl _), Nat.sub_self]
            rfl
          have left : (front ++ (a :: entries ++ back)).eraseIdx front.length =
              front ++ (entries ++ back) := by
            rw [List.eraseIdx_append_of_length_le (Nat.le_refl _), Nat.sub_self]
            rfl
          refine ⟨⟨a, reason, front ++ (a :: entries ++ back)⟩ :: log, ?_, ?_⟩
          · rw [List.filter_cons_of_neg (by rw [gone]; decide)]
            apply Turnover.leave reason there
            rw [left]
            exact later
          · refine List.forall_mem_cons.mpr ⟨⟨rfl, List.mem_cons_self, gone⟩, ?_⟩
            intro other inside
            have known := reasons other inside
            exact ⟨known.1, List.mem_cons_of_mem _ known.2.1, known.2.2⟩
      | false =>
          obtain ⟨log, later, reasons⟩ := induction (front ++ [a])
          rw [List.append_assoc, List.append_assoc] at later
          refine ⟨log, ?_, ?_⟩
          · rw [List.filter_cons_of_pos (by rw [gone]; rfl)]
            exact later
          · intro other inside
            have known := reasons other inside
            exact ⟨known.1, List.mem_cons_of_mem _ known.2.1, known.2.2⟩

end Turnover

end GridcoreRunner
