import Memkit.Foundations.Meter

/-! # When a meter grants everything

A meter with a ceiling grants every draw of a run exactly if the demand conforms: no part of the run
draws more than a full meter and its own fills provide, and no beginning of it more than the level at
the start and its fills. So whether a source is held back depends on its windows alone, not on the
order in which the levels came about. -/

namespace Meter

open Mealy

variable {α : Type*}

/-- What an event asks for. -/
def Event.drawn [Zero α] : Event α → α
  | .fill _ => 0
  | .draw n => n

/-- What the events of a run ask for. -/
def demand [AddCommMonoid α] (es : List (Event α)) : α := (es.map Event.drawn).sum

/-- What the events of a run fill in. -/
def supply [AddCommMonoid α] (es : List (Event α)) : α := (es.map Event.filled).sum

section Sums

variable [AddCommMonoid α]

@[simp] theorem demand_nil : demand ([] : List (Event α)) = 0 := rfl

@[simp] theorem supply_nil : supply ([] : List (Event α)) = 0 := rfl

@[simp] theorem demand_fill (n : α) (es : List (Event α)) : demand (.fill n :: es) = demand es := by
  simp [demand, Event.drawn]

@[simp] theorem demand_draw (n : α) (es : List (Event α)) :
    demand (.draw n :: es) = n + demand es := by
  simp [demand, Event.drawn]

@[simp] theorem supply_fill (n : α) (es : List (Event α)) :
    supply (.fill n :: es) = n + supply es := by
  simp [supply, Event.filled]

@[simp] theorem supply_draw (n : α) (es : List (Event α)) : supply (.draw n :: es) = supply es := by
  simp [supply, Event.filled]

end Sums

variable [AddCommMonoid α] [LinearOrder α]

/-- The demand of a run conforms to a level and a ceiling. -/
structure Conforms (ceiling level : α) (es : List (Event α)) : Prop where
  beginnings : ∀ p, p <+: es → demand p ≤ level + supply p
  windows : ∀ p, p <:+: es → demand p ≤ ceiling + supply p

/-- Every draw of a run is granted in full. -/
def GrantsAll [Sub α] (ceiling level : α) (es : List (Event α)) : Prop :=
  outputs (step ceiling) level es = es.map Event.drawn

variable [CanonicallyOrderedAdd α] [IsOrderedCancelAddMonoid α]

/-! ## Conforming runs -/

/-- A meter that is filled first. -/
theorem conforms_fill {ceiling level n : α} {es : List (Event α)} (hle : level ≤ ceiling) :
    Conforms ceiling level (.fill n :: es) ↔ Conforms ceiling (min (level + n) ceiling) es := by
  constructor
  · intro h
    refine ⟨fun p hp => ?_, fun p hp => h.windows p (hp.trans (List.infix_cons_iff.mpr (.inr ?_)))⟩
    · -- what fits under the ceiling is bounded as a beginning, what does not as a window
      rw [← min_add_add_right]
      refine le_min ?_ (h.windows p (hp.isInfix.trans (List.suffix_cons _ _).isInfix))
      have hfirst := h.beginnings (.fill n :: p) (List.cons_prefix_cons.mpr ⟨rfl, hp⟩)
      simpa [add_assoc] using hfirst
    · exact List.infix_rfl
  · intro h
    have hbeginning : ∀ p, p <+: es → demand p ≤ level + (n + supply p) := by
      intro p hp
      refine (h.beginnings p hp).trans ?_
      rw [← add_assoc]
      exact add_le_add_left (min_le_left _ _) _
    refine ⟨fun p hp => ?_, fun p hp => ?_⟩
    · rcases List.prefix_cons_iff.mp hp with rfl | ⟨q, rfl, hq⟩
      · simp
      · simpa using hbeginning q hq
    · rcases List.infix_cons_iff.mp hp with hp | hp
      · rcases List.prefix_cons_iff.mp hp with rfl | ⟨q, rfl, hq⟩
        · simp
        · rw [demand_fill, supply_fill]
          exact (hbeginning q hq).trans (add_le_add_left hle _)
      · exact h.windows p hp

/-- A meter that is drawn from first. -/
theorem conforms_draw [Sub α] [OrderedSub α] {ceiling level n : α} {es : List (Event α)}
    (hle : level ≤ ceiling) :
    Conforms ceiling level (.draw n :: es) ↔ n ≤ level ∧ Conforms ceiling (level - n) es := by
  constructor
  · intro h
    have hn : n ≤ level := by simpa using h.beginnings [.draw n] (by simp)
    refine ⟨hn, fun p hp => ?_, fun p hp =>
      h.windows p (hp.trans (List.suffix_cons _ _).isInfix)⟩
    have hfirst := h.beginnings (.draw n :: p) (List.cons_prefix_cons.mpr ⟨rfl, hp⟩)
    rw [demand_draw, supply_draw] at hfirst
    -- the draw is taken off both sides
    refine le_of_add_le_add_left (a := n) (hfirst.trans (le_of_eq ?_))
    rw [← add_assoc, add_tsub_cancel_of_le hn]
  · rintro ⟨hn, h⟩
    have hbeginning : ∀ p, p <+: es → n + demand p ≤ level + supply p := by
      intro p hp
      calc n + demand p ≤ n + (level - n + supply p) := add_le_add_right (h.beginnings p hp) n
        _ = level + supply p := by rw [← add_assoc, add_tsub_cancel_of_le hn]
    refine ⟨fun p hp => ?_, fun p hp => ?_⟩
    · rcases List.prefix_cons_iff.mp hp with rfl | ⟨q, rfl, hq⟩
      · simp
      · simpa using hbeginning q hq
    · rcases List.infix_cons_iff.mp hp with hp | hp
      · rcases List.prefix_cons_iff.mp hp with rfl | ⟨q, rfl, hq⟩
        · simp
        · rw [demand_draw, supply_draw]
          exact (hbeginning q hq).trans (add_le_add_left hle _)
      · exact h.windows p hp

/-! ## Granted runs -/

/-- **A meter grants every draw of a run iff the demand of the run conforms.** -/
theorem grantsAll_iff_conforms [Sub α] [OrderedSub α] {ceiling level : α} (hle : level ≤ ceiling)
    (es : List (Event α)) : GrantsAll ceiling level es ↔ Conforms ceiling level es := by
  induction es generalizing level with
  | nil =>
    refine iff_of_true rfl ⟨fun p hp => ?_, fun p hp => ?_⟩
    · simp [List.prefix_nil.mp hp]
    · simp [List.infix_nil.mp hp]
  | cons e es ih =>
    cases e with
    | fill n =>
      rw [conforms_fill hle, ← ih (min_le_right _ _), GrantsAll, GrantsAll]
      simp [step, Event.drawn]
    | draw n =>
      rw [conforms_draw hle, GrantsAll]
      by_cases hn : n ≤ level
      · rw [← ih ((tsub_le_self).trans hle), GrantsAll]
        simp [step, Event.drawn, hn]
      · -- a draw beyond the level takes nothing, and it is not a draw of nothing
        have hne : (0 : α) ≠ n := by
          rintro rfl
          exact hn zero_le
        simp [step, Event.drawn, hn, hne]

end Meter
