import Memkit.Foundations.Transition

/-! # Checked accesses

Reads and writes of an array that are refused out of its bounds, and components whose calls fail by
such an access. A component that follows a reference makes none, in any run. -/

namespace Checked

variable {α : Type*} {n i : ℕ}

/-- Read an element of an array of `n` elements. -/
def readAt (n : ℕ) (a : ℕ → α) (i : ℕ) : Option α := if i < n then some (a i) else none

/-- Write an element of an array of `n` elements. -/
def writeAt (n : ℕ) (a : ℕ → α) (i : ℕ) (v : α) : Option (ℕ → α) :=
  if i < n then some (Function.update a i v) else none

theorem readAt_of_lt (h : i < n) (a : ℕ → α) : readAt n a i = some (a i) := if_pos h

theorem writeAt_of_lt (h : i < n) (a : ℕ → α) (v : α) :
    writeAt n a i v = some (Function.update a i v) := if_pos h

end Checked

namespace Mealy

variable {σ τ ι ο : Type*}

/-- The component whose calls may fail; after a failure there is no state. -/
def checked (step : σ → ι → Option (ο × σ)) (s : Option σ) (i : ι) : Option ο × Option σ :=
  let r := s.bind fun s => step s i
  (r.map Prod.fst, r.map Prod.snd)

variable {step : σ → ι → Option (ο × σ)}

theorem checked_some {s s' : σ} {i : ι} {o : ο} (h : step s i = some (o, s')) :
    checked step (some s) i = (some o, some s') := by
  simp only [checked, Option.bind_some, h, Option.map_some]

/-- **Simulation rule** for a component that may fail: if no call fails and the answers are those of
a reference, no run fails and its answers are those of the reference. -/
theorem checked_simulation (R : σ → τ → Prop) {step' : τ → ι → ο × τ}
    (hstep : ∀ s t i, R s t → ∃ s', step s i = some ((step' t i).1, s') ∧ R s' (step' t i).2)
    {s : σ} {t : τ} (hR : R s t) (is : List ι) :
    outputs (checked step) (some s) is = (outputs step' t is).map some ∧
      ∃ s', final (checked step) (some s) is = some s' ∧ R s' (final step' t is) := by
  induction is generalizing s t with
  | nil => exact ⟨rfl, s, rfl, hR⟩
  | cons i is ih =>
    obtain ⟨s', hcall, hnext⟩ := hstep s t i hR
    obtain ⟨hrest, u, hfinal, hu⟩ := ih hnext
    have hchecked := checked_some hcall
    refine ⟨?_, u, ?_, hu⟩
    · rw [outputs_cons, hchecked, hrest, outputs_cons, List.map_cons]
    · rw [final_cons, hchecked]
      exact hfinal

end Mealy
