import Mathlib.Logic.Relation
import Mathlib.Data.Nat.Notation

/-! # Loops

A loop is given by one turn: from the state at its head it either goes on with a new state or ends
with a result.

* **`Returns turn s n r`** — from `s` the loop goes on `n` times and ends with `r`.
* **`run`** — the loop with a bound on its turns; enough of them give the result.
* **`exists_returns`** — the rule of total correctness: an invariant and a measure. -/

namespace Loop

variable {σ ρ : Type*}

/-- What one turn does. -/
inductive Turn (σ ρ : Type*)
  | again (s : σ)
  | done (r : ρ)

/-- The loop goes on `n` times from `s` and ends with `r`. -/
inductive Returns (turn : σ → Turn σ ρ) : σ → ℕ → ρ → Prop
  | done {s : σ} {r : ρ} (h : turn s = .done r) : Returns turn s 0 r
  | again {s s' : σ} {n : ℕ} {r : ρ} (h : turn s = .again s') (hrest : Returns turn s' n r) :
    Returns turn s (n + 1) r

/-- The loop comes from one state to another. -/
def Reaches (turn : σ → Turn σ ρ) : σ → σ → Prop :=
  Relation.ReflTransGen fun s s' => turn s = .again s'

/-- The loop with at most `rounds` turns. -/
def run (turn : σ → Turn σ ρ) : ℕ → σ → Option ρ
  | 0, _ => none
  | rounds + 1, s =>
    match turn s with
    | .done r => some r
    | .again s' => run turn rounds s'

variable {turn : σ → Turn σ ρ} {s s' : σ} {n m : ℕ} {r q : ρ}

theorem run_done (h : turn s = .done r) (rounds : ℕ) : run turn (rounds + 1) s = some r := by
  simp only [run, h]

theorem run_again (h : turn s = .again s') (rounds : ℕ) :
    run turn (rounds + 1) s = run turn rounds s' := by
  simp only [run, h]

/-- More turns than the loop takes give its result. -/
theorem Returns.run_eq (h : Returns turn s n r) {rounds : ℕ} (hrounds : n < rounds) :
    run turn rounds s = some r := by
  induction h generalizing rounds with
  | done hdone =>
    cases rounds with
    | zero => exact absurd hrounds (Nat.not_lt_zero _)
    | succ rounds => exact run_done hdone rounds
  | again hagain _ ih =>
    cases rounds with
    | zero => exact absurd hrounds (Nat.not_lt_zero _)
    | succ rounds =>
      rw [run_again hagain]
      apply ih
      omega

/-- **Rule of total correctness**: each turn that goes on keeps the invariant and lowers the measure,
and each turn that ends gives what is wanted. -/
theorem exists_returns (turn : σ → Turn σ ρ) (Inv : σ → Prop) (μ : σ → ℕ) (Post : ρ → Prop)
    (hagain : ∀ s s', Inv s → turn s = .again s' → Inv s' ∧ μ s' < μ s)
    (hdone : ∀ s r, Inv s → turn s = .done r → Post r) (hs : Inv s) :
    ∃ n ≤ μ s, ∃ r, Returns turn s n r ∧ Post r := by
  -- strong induction on the measure
  induction hμ : μ s using Nat.strongRecOn generalizing s with
  | ind k ih =>
    cases hturn : turn s with
    | done r => exact ⟨0, Nat.zero_le _, r, .done hturn, hdone s r hs hturn⟩
    | again s' =>
      obtain ⟨hinv, hless⟩ := hagain s s' hs hturn
      obtain ⟨n, hn, r, hreturns, hpost⟩ := ih (μ s') (hμ ▸ hless) hinv rfl
      exact ⟨n + 1, by omega, r, .again hturn hreturns, hpost⟩

end Loop
