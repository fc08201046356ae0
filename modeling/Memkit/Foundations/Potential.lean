import Memkit.Foundations.Transition

/-! # Potentials of an interleaving

How long the calls of one party of an interleaving take is bounded by a potential. `done` counts the
calls of the party that have returned, `used` the moves it has made in the call it is in. A move of
the party either goes on with the call or ends it, and the moves of the others change neither.

* **`countP_add_le_of_potential`** — a potential that rises with every move of the party bounds the
  number of these moves.
* **`moves_lt_of_used_lt`** — the form for calls of fewer than `bound` moves each. -/

namespace Transition

variable {σ ℓ : Type*} {step : σ → ℓ → Option σ}

/-- The invariant rule for runs all of whose labels are good. -/
theorem run_invariant_of_good (Inv : σ → Prop) (good : ℓ → Prop)
    (hinv : ∀ s a t, Inv s → good a → step s a = some t → Inv t)
    {s t : σ} {as : List ℓ} (hs : Inv s) (hgood : ∀ a ∈ as, good a)
    (hrun : run step s as = some t) : Inv t := by
  induction as generalizing s with
  | nil =>
    obtain rfl : s = t := by simpa using hrun
    exact hs
  | cons a as ih =>
    obtain ⟨u, hu, hrest⟩ := Option.bind_eq_some_iff.mp hrun
    exact ih (hinv s a u hs (hgood a (by simp)) hu) (fun b hb => hgood b (by simp [hb])) hrest

/-- **Potential rule**: a number that no step lowers, and that every step of the party raises, rises
over a run by at least the number of steps of the party. -/
theorem countP_add_le_of_potential (Inv : σ → Prop) (good : ℓ → Prop) (own : ℓ → Bool)
    (potential : σ → ℕ)
    (hinv : ∀ s a t, Inv s → good a → step s a = some t → Inv t)
    (hrise : ∀ s a t, Inv s → good a → step s a = some t →
      (if own a then 1 else 0) + potential s ≤ potential t)
    {s t : σ} {as : List ℓ} (hs : Inv s) (hgood : ∀ a ∈ as, good a)
    (hrun : run step s as = some t) : as.countP own + potential s ≤ potential t := by
  induction as generalizing s with
  | nil =>
    obtain rfl : s = t := by simpa using hrun
    simp
  | cons a as ih =>
    obtain ⟨u, hu, hrest⟩ := Option.bind_eq_some_iff.mp hrun
    have ha : good a := hgood a (by simp)
    have hfirst := hrise s a u hs ha hu
    have hlater := ih (hinv s a u hs ha hu) (fun b hb => hgood b (by simp [hb])) hrest
    rw [List.countP_cons]
    omega

/-- **Bounded calls**: if a call never takes `bound` moves, the moves of a run are fewer than `bound`
for every call that returned in it and for the call that is not over. -/
theorem moves_lt_of_used_lt (Inv : σ → Prop) (good : ℓ → Prop) (own : ℓ → Bool) (used done : σ → ℕ)
    (bound : ℕ) (hinv : ∀ s a t, Inv s → good a → step s a = some t → Inv t)
    (hused : ∀ s, Inv s → used s < bound)
    (hrise : ∀ s a t, Inv s → good a → step s a = some t →
      (if own a then 1 else 0) + (used s + bound * done s) ≤ used t + bound * done t)
    {s t : σ} {as : List ℓ} (hs : Inv s) (hgood : ∀ a ∈ as, good a)
    (hrun : run step s as = some t) :
    as.countP own + bound * done s < bound * (done t + 1) := by
  have hend : Inv t := run_invariant_of_good Inv good hinv hs hgood hrun
  have hcount := countP_add_le_of_potential Inv good own (fun s => used s + bound * done s) hinv
    hrise hs hgood hrun
  have hlast := hused t hend
  rw [Nat.mul_add, Nat.mul_one]
  omega

end Transition
