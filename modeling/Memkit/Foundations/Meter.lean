import Memkit.Foundations.Transition

/-! # Meters with a ceiling

A level that is filled up to a ceiling and drawn from. What is drawn over any run is paid for by
the level at its start and by what was filled in; what does not fit under the ceiling is lost.
Levels are elements of an ordered monoid with truncated subtraction. -/

namespace Meter

open Mealy

variable {α : Type*}

/-- What happens to a meter. -/
inductive Event (α : Type*)
  | fill (n : α)
  | draw (n : α)

/-- What an event fills in. -/
def Event.filled [Zero α] : Event α → α
  | .fill n => n
  | .draw _ => 0

/-- One event: the amount drawn, and the level after it. A draw beyond the level takes nothing. -/
def step [AddCommMonoid α] [LinearOrder α] [Sub α] (ceiling level : α) : Event α → α × α
  | .fill n => (0, min (level + n) ceiling)
  | .draw n => if n ≤ level then (n, level - n) else (0, level)

variable [AddCommMonoid α] [LinearOrder α] [CanonicallyOrderedAdd α]

/-- Filling twice is filling once with the sum. -/
theorem fill_fill (ceiling level m n : α) :
    min (min (level + m) ceiling + n) ceiling = min (level + (m + n)) ceiling := by
  rw [← add_assoc]
  rcases le_total (level + m) ceiling with h | h
  · rw [min_eq_left h]
  · rw [min_eq_right h, min_eq_right le_self_add, min_eq_right (h.trans le_self_add)]

variable [Sub α] [OrderedSub α] {ceiling level : α}

variable [IsOrderedAddMonoid α]

/-- **One event** spends no more than there is and is filled in. -/
theorem drawn_add_level_le (ceiling level : α) (e : Event α) :
    (step ceiling level e).1 + (step ceiling level e).2 ≤ level + e.filled := by
  cases e with
  | fill n =>
    rw [step, Event.filled, zero_add]
    exact min_le_left _ _
  | draw n =>
    rw [step, Event.filled, add_zero]
    by_cases hle : n ≤ level
    · rw [if_pos hle]
      exact (add_tsub_cancel_of_le hle).le
    · rw [if_neg hle, zero_add]

/-- **A run** spends no more than there is at its start and is filled in during it. -/
theorem drawn_add_final_le (ceiling level : α) (es : List (Event α)) :
    (outputs (step ceiling) level es).sum + final (step ceiling) level es ≤
      level + (es.map Event.filled).sum := by
  induction es generalizing level with
  | nil => simp
  | cons e es ih =>
    rw [outputs_cons, final_cons, List.sum_cons, List.map_cons, List.sum_cons]
    calc (step ceiling level e).1 + (outputs (step ceiling) (step ceiling level e).2 es).sum +
          final (step ceiling) (step ceiling level e).2 es
        ≤ (step ceiling level e).1 + ((step ceiling level e).2 + (es.map Event.filled).sum) := by
          rw [add_assoc]
          exact add_le_add_right (ih _) _
      _ ≤ level + e.filled + (es.map Event.filled).sum := by
          rw [← add_assoc]
          exact add_le_add_left (drawn_add_level_le ceiling level e) _
      _ = level + (e.filled + (es.map Event.filled).sum) := add_assoc _ _ _

end Meter
