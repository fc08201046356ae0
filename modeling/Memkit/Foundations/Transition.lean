import Mathlib.Tactic

/-! # Labelled transitions and Mealy machines

Two shapes of stateful system, over arbitrary types:

* **`Transition`** — a partial step `σ → ℓ → Option σ`, for interleavings in which a label may be
  disabled. `run` folds the step over a list of labels, `EveryStep` says that a run only takes
  steps meeting a guard, and `run_invariant` / `EveryStep.run_invariant` are the induction rules.
* **`Mealy`** — a total step `σ → ι → ο × σ`, for a sequential component whose calls always
  return. `outputs` and `final` fold the step, `EveryCall` is the guard, and `simulation` is the
  rule that turns one related step into equal output sequences. `Conforms` is for specifications
  that leave a choice. -/

namespace Transition

variable {σ ℓ : Type*}

/-- Run a partial labelled step along a list of labels; `none` if some label is disabled. -/
def run (step : σ → ℓ → Option σ) : σ → List ℓ → Option σ
  | s, [] => some s
  | s, a :: as => (step s a).bind fun t => run step t as

variable {step : σ → ℓ → Option σ}

@[simp] theorem run_nil (s : σ) : run step s [] = some s := rfl

@[simp] theorem run_cons (s : σ) (a : ℓ) (as : List ℓ) :
    run step s (a :: as) = (step s a).bind fun t => run step t as := rfl

/-- A run along `as ++ bs` is a run along `as` followed by one along `bs`. -/
theorem run_append (s : σ) (as bs : List ℓ) :
    run step s (as ++ bs) = (run step s as).bind fun t => run step t bs := by
  induction as generalizing s with
  | nil => simp
  | cons a as ih =>
    simp only [List.cons_append, run_cons, Option.bind_assoc]
    congr 1
    funext t
    exact ih t

/-- The last step of a run that ends with label `a`. -/
theorem run_concat {s u : σ} {as : List ℓ} {a : ℓ} :
    run step s (as ++ [a]) = some u ↔ ∃ t, run step s as = some t ∧ step t a = some u := by
  rw [run_append, Option.bind_eq_some_iff]
  simp

/-- A run whose final state is observed to give `b` exists and ends in such a state. -/
theorem exists_run_eq {β : Type*} (step : σ → ℓ → Option σ) (s : σ) (as : List ℓ) (f : σ → β)
    {b : β} (h : (run step s as).map f = some b) : ∃ t, run step s as = some t ∧ f t = b :=
  Option.map_eq_some_iff.mp h

/-- **Invariant rule**: what every step preserves holds at the end of every run. -/
theorem run_invariant (Inv : σ → Prop)
    (hstep : ∀ s a t, Inv s → step s a = some t → Inv t)
    {s t : σ} {as : List ℓ} (hs : Inv s) (hrun : run step s as = some t) : Inv t := by
  induction as generalizing s with
  | nil =>
    obtain rfl : s = t := by simpa using hrun
    exact hs
  | cons a as ih =>
    obtain ⟨u, hu, hrest⟩ := Option.bind_eq_some_iff.mp hrun
    exact ih (hstep s a u hs hu) hrest

/-- Every step taken along the labels meets the guard `good`, read at the state before it. -/
def EveryStep (step : σ → ℓ → Option σ) (good : σ → ℓ → Prop) : σ → List ℓ → Prop
  | _, [] => True
  | s, a :: as => good s a ∧ ∀ t, step s a = some t → EveryStep step good t as

variable {good : σ → ℓ → Prop}

@[simp] theorem everyStep_nil (s : σ) : EveryStep step good s [] := trivial

theorem everyStep_cons {s : σ} {a : ℓ} {as : List ℓ} :
    EveryStep step good s (a :: as) ↔
      good s a ∧ ∀ t, step s a = some t → EveryStep step good t as := Iff.rfl

/-- A guarded run is checked by running it. -/
instance decidableEveryStep [∀ s a, Decidable (good s a)] :
    ∀ s as, Decidable (EveryStep step good s as)
  | _, [] => isTrue trivial
  | s, a :: as =>
    match h : step s a with
    | none => decidable_of_iff (good s a) (by simp [EveryStep, h])
    | some t =>
      have := decidableEveryStep t as
      decidable_of_iff (good s a ∧ EveryStep step good t as) (by simp [EveryStep, h])

/-- **Guarded invariant rule**: an invariant kept by every step that meets the guard holds at the
end of every run all of whose steps meet it. -/
theorem EveryStep.run_invariant (Inv : σ → Prop)
    (hstep : ∀ s a t, Inv s → good s a → step s a = some t → Inv t)
    {s t : σ} {as : List ℓ} (hgood : EveryStep step good s as) (hs : Inv s)
    (hrun : run step s as = some t) : Inv t := by
  induction as generalizing s with
  | nil =>
    obtain rfl : s = t := by simpa using hrun
    exact hs
  | cons a as ih =>
    obtain ⟨u, hu, hrest⟩ := Option.bind_eq_some_iff.mp hrun
    exact ih (hgood.2 u hu) (hstep s a u hs hgood.1 hu) hrest

/-- A guarded run goes on by a guarded step. -/
theorem EveryStep.concat {s t : σ} {as : List ℓ} {a : ℓ} (h : EveryStep step good s as)
    (hrun : run step s as = some t) (ha : good t a) : EveryStep step good s (as ++ [a]) := by
  induction as generalizing s with
  | nil =>
    obtain rfl : s = t := by simpa using hrun
    exact ⟨ha, fun _ _ => trivial⟩
  | cons b as ih =>
    obtain ⟨u, hu, hrest⟩ := Option.bind_eq_some_iff.mp hrun
    refine ⟨h.1, fun v hv => ?_⟩
    obtain rfl : u = v := Option.some.inj (hu.symm.trans hv)
    exact ih (h.2 u hu) hrest

/-- **Backward guard rule**: if a property of the final state passes to the states before it, and
where it holds after a step that step met the guard, then every step of the run met it. -/
theorem everyStep_of_final (Inv Fine : σ → Prop)
    (hback : ∀ s a t, step s a = some t → Fine t → Fine s)
    (hgood : ∀ s a t, Inv s → step s a = some t → Fine t → good s a)
    (hkeep : ∀ s a t, Inv s → good s a → step s a = some t → Inv t)
    {s t : σ} {as : List ℓ} (hs : Inv s) (hrun : run step s as = some t) (ht : Fine t) :
    EveryStep step good s as := by
  induction as generalizing s with
  | nil => trivial
  | cons a as ih =>
    obtain ⟨u, hu, hrest⟩ := Option.bind_eq_some_iff.mp hrun
    have hfine : Fine u := by
      by_contra hnot
      exact run_invariant (fun s => ¬ Fine s) (fun s a t hn hst hf => hn (hback s a t hst hf)) hnot
        hrest ht
    have hstep := hgood s a u hs hu hfine
    refine ⟨hstep, fun v hv => ?_⟩
    obtain rfl : u = v := Option.some.inj (hu.symm.trans hv)
    exact ih (hkeep s a u hs hstep hu) hrest

end Transition

namespace Mealy

variable {σ τ ι ο : Type*}

/-- The outputs of a sequence of calls, in order. -/
def outputs (step : σ → ι → ο × σ) : σ → List ι → List ο
  | _, [] => []
  | s, i :: is => (step s i).1 :: outputs step (step s i).2 is

/-- The state after a sequence of calls. -/
def final (step : σ → ι → ο × σ) : σ → List ι → σ
  | s, [] => s
  | s, i :: is => final step (step s i).2 is

variable {step : σ → ι → ο × σ}

@[simp] theorem outputs_nil (s : σ) : outputs step s [] = [] := rfl

@[simp] theorem outputs_cons (s : σ) (i : ι) (is : List ι) :
    outputs step s (i :: is) = (step s i).1 :: outputs step (step s i).2 is := rfl

@[simp] theorem final_nil (s : σ) : final step s [] = s := rfl

@[simp] theorem final_cons (s : σ) (i : ι) (is : List ι) :
    final step s (i :: is) = final step (step s i).2 is := rfl

/-- Calls that are translated. -/
theorem outputs_map {κ : Type*} (f : κ → ι) (s : σ) (ks : List κ) :
    outputs step s (ks.map f) = outputs (fun s k => step s (f k)) s ks := by
  induction ks generalizing s with
  | nil => rfl
  | cons k ks ih => rw [List.map_cons, outputs_cons, outputs_cons, ih]

theorem final_map {κ : Type*} (f : κ → ι) (s : σ) (ks : List κ) :
    final step s (ks.map f) = final (fun s k => step s (f k)) s ks := by
  induction ks generalizing s with
  | nil => rfl
  | cons k ks ih => rw [List.map_cons, final_cons, final_cons, ih]

/-- Every call of the sequence meets the guard `good`, read at the state before it. -/
def EveryCall (step : σ → ι → ο × σ) (good : σ → ι → Prop) : σ → List ι → Prop
  | _, [] => True
  | s, i :: is => good s i ∧ EveryCall step good (step s i).2 is

variable {good : σ → ι → Prop}

@[simp] theorem everyCall_nil (s : σ) : EveryCall step good s [] := trivial

@[simp] theorem everyCall_cons {s : σ} {i : ι} {is : List ι} :
    EveryCall step good s (i :: is) ↔ good s i ∧ EveryCall step good (step s i).2 is := Iff.rfl

/-- A guarded call sequence is checked by running it. -/
instance decidableEveryCall [∀ s i, Decidable (good s i)] :
    ∀ s is, Decidable (EveryCall step good s is)
  | _, [] => isTrue trivial
  | s, i :: is =>
    have := decidableEveryCall (step s i).2 is
    inferInstanceAs (Decidable (good s i ∧ EveryCall step good (step s i).2 is))

/-- **Invariant rule** for guarded call sequences. -/
theorem EveryCall.final_invariant (Inv : σ → Prop)
    (hstep : ∀ s i, Inv s → good s i → Inv (step s i).2)
    {s : σ} {is : List ι} (hgood : EveryCall step good s is) (hs : Inv s) :
    Inv (final step s is) := by
  induction is generalizing s with
  | nil => exact hs
  | cons i is ih => exact ih hgood.2 (hstep s i hs hgood.1)

/-- Guarded calls have every property that the guard gives under the invariant. -/
theorem EveryCall.imp (Inv : σ → Prop) {good' : σ → ι → Prop}
    (hstep : ∀ s i, Inv s → good s i → Inv (step s i).2)
    (himp : ∀ s i, Inv s → good s i → good' s i)
    {s : σ} {is : List ι} (hgood : EveryCall step good s is) (hs : Inv s) :
    EveryCall step good' s is := by
  induction is generalizing s with
  | nil => trivial
  | cons i is ih =>
    exact ⟨himp s i hs hgood.1, ih hgood.2 (hstep s i hs hgood.1)⟩

/-- **Invariant rule** for guarded call sequences that end well: the step may assume of the state
after it whatever holds of the final state and passes to the states before it. -/
theorem EveryCall.final_invariant_of_final (Inv Fine : σ → Prop)
    (hback : ∀ s i, Fine (step s i).2 → Fine s)
    (hstep : ∀ s i, Inv s → good s i → Fine (step s i).2 → Inv (step s i).2)
    {s : σ} {is : List ι} (hgood : EveryCall step good s is) (hs : Inv s)
    (hfine : Fine (final step s is)) : Inv (final step s is) := by
  have hfirst : ∀ (is : List ι) (s : σ), Fine (final step s is) → Fine s := by
    intro is
    induction is with
    | nil => exact fun _ hf => hf
    | cons i is ih => exact fun s hf => hback s i (ih _ hf)
  induction is generalizing s with
  | nil => exact hs
  | cons i is ih => exact ih hgood.2 (hstep s i hs hgood.1 (hfirst is _ hfine)) hfine

/-- **Guard exactness rule**: if guarded calls keep an invariant, the first call that is not guarded
is lost for ever, and what is lost is not fine, then a sequence ends well exactly if every call of it
is guarded. -/
theorem everyCall_iff_final (Inv Lost Fine : σ → Prop)
    (hkeep : ∀ s i, Inv s → good s i → Inv (step s i).2)
    (hlose : ∀ s i, Inv s → ¬ good s i → Lost (step s i).2)
    (hstay : ∀ s i, Lost s → Lost (step s i).2) (hfine : ∀ s, Inv s → Fine s)
    (hlost : ∀ s, Lost s → ¬ Fine s) {s : σ} (hs : Inv s) (is : List ι) :
    EveryCall step good s is ↔ Fine (final step s is) := by
  have hfinal : ∀ (is : List ι) (s : σ), Lost s → Lost (final step s is) := by
    intro is
    induction is with
    | nil => exact fun _ h => h
    | cons i is ih => exact fun s h => ih _ (hstay s i h)
  induction is generalizing s with
  | nil => exact ⟨fun _ => hfine s hs, fun _ => trivial⟩
  | cons i is ih =>
    rw [everyCall_cons, final_cons]
    by_cases hi : good s i
    · rw [and_iff_right hi]
      exact ih (hkeep s i hs hi)
    · refine ⟨fun h => absurd h.1 hi, fun h => ?_⟩
      exact absurd h (hlost _ (hfinal is _ (hlose s i hs hi)))

/-- **Guard exactness rule** under a side condition that the calls are known to meet. -/
theorem everyCall_iff_final_of_side (Inv Lost Fine : σ → Prop) {side : σ → ι → Prop}
    (hkeep : ∀ s i, Inv s → side s i → good s i → Inv (step s i).2)
    (hlose : ∀ s i, Inv s → side s i → ¬ good s i → Lost (step s i).2)
    (hstay : ∀ s i, Lost s → Lost (step s i).2) (hfine : ∀ s, Inv s → Fine s)
    (hlost : ∀ s, Lost s → ¬ Fine s) {s : σ} (hs : Inv s) {is : List ι}
    (hside : EveryCall step side s is) :
    EveryCall step good s is ↔ Fine (final step s is) := by
  have hfinal : ∀ (is : List ι) (s : σ), Lost s → Lost (final step s is) := by
    intro is
    induction is with
    | nil => exact fun _ h => h
    | cons i is ih => exact fun s h => ih _ (hstay s i h)
  induction is generalizing s with
  | nil => exact ⟨fun _ => hfine s hs, fun _ => trivial⟩
  | cons i is ih =>
    rw [everyCall_cons, final_cons]
    by_cases hi : good s i
    · rw [and_iff_right hi]
      exact ih (hkeep s i hs hside.1 hi) hside.2
    · refine ⟨fun h => absurd h.1 hi, fun h => ?_⟩
      exact absurd h (hlost _ (hfinal is _ (hlose s i hs hside.1 hi)))

/-- Two guards at once. -/
theorem EveryCall.and {good' : σ → ι → Prop} {s : σ} {is : List ι}
    (h : EveryCall step good s is) (h' : EveryCall step good' s is) :
    EveryCall step (fun s i => good s i ∧ good' s i) s is := by
  induction is generalizing s with
  | nil => trivial
  | cons i is ih => exact ⟨⟨h.1, h'.1⟩, ih h.2 h'.2⟩

/-- One more call at the end. -/
theorem everyCall_concat {s : σ} {is : List ι} {i : ι} :
    EveryCall step good s (is ++ [i]) ↔ EveryCall step good s is ∧ good (final step s is) i := by
  induction is generalizing s with
  | nil => simp
  | cons j is ih => rw [List.cons_append, everyCall_cons, everyCall_cons, final_cons, ih, and_assoc]

theorem final_concat (s : σ) (is : List ι) (i : ι) :
    final step s (is ++ [i]) = (step (final step s is) i).2 := by
  induction is generalizing s with
  | nil => rfl
  | cons j is ih => rw [List.cons_append, final_cons, final_cons, ih]

/-- The trivial guard accepts every sequence. -/
theorem everyCall_true (s : σ) (is : List ι) : EveryCall step (fun _ _ => True) s is := by
  induction is generalizing s with
  | nil => trivial
  | cons i is ih => exact ⟨trivial, ih _⟩

/-- **Guard equivalence rule**: if under an invariant and a side condition two guards agree at
every call, and the guards keep the invariant, they accept the same call sequences. -/
theorem everyCall_congr (Inv : σ → Prop) {side good' : σ → ι → Prop}
    (hiff : ∀ s i, Inv s → side s i → (good s i ↔ good' s i))
    (hkeep : ∀ s i, Inv s → side s i → good s i → Inv (step s i).2)
    {s : σ} {is : List ι} (hs : Inv s) (hside : EveryCall step side s is) :
    EveryCall step good s is ↔ EveryCall step good' s is := by
  induction is generalizing s with
  | nil => exact Iff.rfl
  | cons i is ih =>
    simp only [everyCall_cons] at hside ⊢
    constructor
    · rintro ⟨hi, his⟩
      exact ⟨(hiff s i hs hside.1).mp hi, (ih (hkeep s i hs hside.1 hi) hside.2).mp his⟩
    · rintro ⟨hi, his⟩
      have hg := (hiff s i hs hside.1).mpr hi
      exact ⟨hg, (ih (hkeep s i hs hside.1 hg) hside.2).mpr his⟩

/-- **Simulation rule**: calls that give equal outputs and keep the states related give equal
output sequences and related final states. -/
theorem simulation (R : σ → τ → Prop) {step' : τ → ι → ο × τ}
    (hstep : ∀ s t i, R s t → good s i →
      (step s i).1 = (step' t i).1 ∧ R (step s i).2 (step' t i).2)
    {s : σ} {t : τ} {is : List ι} (hgood : EveryCall step good s is) (hR : R s t) :
    outputs step s is = outputs step' t is ∧ R (final step s is) (final step' t is) := by
  induction is generalizing s t with
  | nil => exact ⟨rfl, hR⟩
  | cons i is ih =>
    obtain ⟨hout, hnext⟩ := hstep s t i hR hgood.1
    obtain ⟨hrest, hfin⟩ := ih hgood.2 hnext
    exact ⟨by simp only [outputs_cons, hout, hrest], hfin⟩

/-- **Simulation rule** up to a translation of the outputs. -/
theorem simulation_map {ο' : Type*} (f : ο' → ο) (R : σ → τ → Prop) {step' : τ → ι → ο' × τ}
    (hstep : ∀ s t i, R s t → (step s i).1 = f (step' t i).1 ∧ R (step s i).2 (step' t i).2)
    {s : σ} {t : τ} (hR : R s t) (is : List ι) :
    outputs step s is = (outputs step' t is).map f ∧ R (final step s is) (final step' t is) := by
  induction is generalizing s t with
  | nil => exact ⟨rfl, hR⟩
  | cons i is ih =>
    obtain ⟨hout, hnext⟩ := hstep s t i hR
    obtain ⟨hrest, hfin⟩ := ih hnext
    exact ⟨by simp only [outputs_cons, List.map_cons, hout, hrest], hfin⟩

/-- The answers to a sequence of calls conform to a specification that relates a state and a call
to the answers allowed and the states after them. -/
inductive Conforms (spec : τ → ι → ο → τ → Prop) : τ → List ι → List ο → τ → Prop
  | nil (t : τ) : Conforms spec t [] [] t
  | cons {t u v : τ} {i : ι} {is : List ι} {o : ο} {os : List ο} (hstep : spec t i o u)
    (hrest : Conforms spec u is os v) : Conforms spec t (i :: is) (o :: os) v

/-- **Simulation rule** for a specification and guarded calls, with a guard that the specification
need not know. -/
theorem EveryCall.conforms (R : σ → τ → Prop) {spec : τ → ι → ο → τ → Prop}
    (hstep : ∀ s t i, R s t → good s i → ∃ u, spec t i (step s i).1 u ∧ R (step s i).2 u)
    {s : σ} {t : τ} {is : List ι} (hgood : EveryCall step good s is) (hR : R s t) :
    ∃ u, Conforms spec t is (outputs step s is) u ∧ R (final step s is) u := by
  induction is generalizing s t with
  | nil => exact ⟨t, .nil t, hR⟩
  | cons i is ih =>
    obtain ⟨u, hspec, hnext⟩ := hstep s t i hR hgood.1
    obtain ⟨v, hrest, hfin⟩ := ih hgood.2 hnext
    exact ⟨v, .cons hspec hrest, hfin⟩

/-- **Simulation rule** for a specification: calls that give an answer allowed and keep the states
related give answers that conform, and related final states. -/
theorem conforms_of_simulation {ο' : Type*} (f : ο' → ο) (R : σ → τ → Prop)
    {spec : τ → ι → ο' → τ → Prop}
    (hstep : ∀ s t i, R s t → ∃ o u, (step s i).1 = f o ∧ spec t i o u ∧ R (step s i).2 u)
    {s : σ} {t : τ} (hR : R s t) (is : List ι) :
    ∃ os u, outputs step s is = os.map f ∧ Conforms spec t is os u ∧ R (final step s is) u := by
  induction is generalizing s t with
  | nil => exact ⟨[], t, rfl, .nil t, hR⟩
  | cons i is ih =>
    obtain ⟨o, u, hout, hspec, hnext⟩ := hstep s t i hR
    obtain ⟨os, v, houtputs, hconforms, hfin⟩ := ih hnext
    exact ⟨o :: os, v, by rw [outputs_cons, hout, houtputs, List.map_cons], .cons hspec hconforms,
      hfin⟩

end Mealy
