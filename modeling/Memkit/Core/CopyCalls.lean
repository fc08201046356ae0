import Memkit.Core.ElementPolicy

/-! # The copy callbacks of a call

A call of a container may run several copy callbacks. `copy_construct` passes the status of the
callback on, `copy_assign` drops it, so a failure may be known to the callback alone.

* **`CopyCall`** — one run of a callback, with the status it returned.
* **`Truthful`** — the status of the call tells of every failure, and ok means that it is done.
* **`Accounts.truthful_iff`** — so it is when no failure is known to `copy_assign` alone. -/

namespace Memkit

/-- One run of a copy callback, with the status that it returned. -/
inductive CopyCall
  | construct (st : Status)
  | assign (st : Status)
  deriving DecidableEq, Repr

/-- The status that `copy_assign` drops. -/
def ElementPolicy.droppedStatus {V : Type*} (p : ElementPolicy V) (n : ℕ) (dst src : V) : Status :=
  (p.copyFn n dst src).1

namespace CopyCall

/-- What the callback returned. -/
def status : CopyCall → Status
  | construct st => st
  | assign st => st

/-- No callback run by `copy_construct` failed. -/
def ConstructsOk (copies : List CopyCall) : Prop := ∀ st, construct st ∈ copies → st = .ok

/-- No callback run by `copy_assign` failed. -/
def AssignsOk (copies : List CopyCall) : Prop := ∀ st, assign st ∈ copies → st = .ok

/-- Unless a callback run by `copy_construct` failed, none run by `copy_assign` did. -/
def NoneDropped (copies : List CopyCall) : Prop := ConstructsOk copies → AssignsOk copies

instance (copies : List CopyCall) : Decidable (ConstructsOk copies) :=
  decidable_of_iff (∀ c ∈ copies, ∀ st ∈ [c.status], c = construct st → st = .ok)
    ⟨fun h st hst => h _ hst st (List.mem_singleton_self st) rfl,
      fun h _ hc st _ heq => h st (heq ▸ hc)⟩

instance (copies : List CopyCall) : Decidable (AssignsOk copies) :=
  decidable_of_iff (∀ c ∈ copies, ∀ st ∈ [c.status], c = assign st → st = .ok)
    ⟨fun h st hst => h _ hst st (List.mem_singleton_self st) rfl,
      fun h _ hc st _ heq => h st (heq ▸ hc)⟩

instance (copies : List CopyCall) : Decidable (NoneDropped copies) :=
  inferInstanceAs (Decidable (ConstructsOk copies → AssignsOk copies))

/-- The status of a call that ran the callbacks `copies` is truthful: it is not ok if one of them
failed, and if it is ok then what the call is for is `done`. -/
structure Truthful (copies : List CopyCall) (result : Option Status) (done : Prop) : Prop where
  reported : (∃ c ∈ copies, c.status ≠ .ok) → result ≠ some .ok
  performed : result = some .ok → done

variable {copies : List CopyCall} {result : Option Status} {done : Prop} {st : Status}

theorem constructsOk_nil : ConstructsOk [] := fun _ hmem => by cases hmem

theorem assignsOk_nil : AssignsOk [] := fun _ hmem => by cases hmem

@[simp] theorem constructsOk_assign : ConstructsOk [assign st] := fun _ hmem => by simp at hmem

@[simp] theorem assignsOk_assign : AssignsOk [assign st] ↔ st = .ok := by
  simp [AssignsOk]

theorem constructsOk_append {copies' : List CopyCall} :
    ConstructsOk (copies ++ copies') ↔ ConstructsOk copies ∧ ConstructsOk copies' := by
  simp only [ConstructsOk, List.mem_append, or_imp, forall_and]

theorem assignsOk_append {copies' : List CopyCall} :
    AssignsOk (copies ++ copies') ↔ AssignsOk copies ∧ AssignsOk copies' := by
  simp only [AssignsOk, List.mem_append, or_imp, forall_and]

/-- Every callback succeeded. -/
theorem status_ok (hconstructs : ConstructsOk copies) (hassigns : AssignsOk copies) :
    ¬ ∃ c ∈ copies, c.status ≠ .ok := by
  rintro ⟨c, hc, hst⟩
  cases c with
  | construct st => exact hst (hconstructs st hc)
  | assign st => exact hst (hassigns st hc)

/-- How the status of a call comes about: failures of `copy_construct` are passed on, those of
`copy_assign` are not, and `good` is what a call that returns ok needs to be done. -/
structure Accounts (copies : List CopyCall) (result : Option Status) (done good : Prop) : Prop where
  passed : result = some .ok → ConstructsOk copies
  dropped : ConstructsOk copies → ¬ AssignsOk copies → result = some .ok
  done_iff : result = some .ok → AssignsOk copies → (done ↔ good)
  bad : ¬ good → result = some .ok

/-- **When a status is truthful**: exactly if no failure is dropped, and the call is in a good
way. -/
theorem Accounts.truthful_iff {good : Prop} (h : Accounts copies result done good) :
    Truthful copies result done ↔ NoneDropped copies ∧ good := by
  obtain ⟨hpassed, hdropped, hdone, hbad⟩ := h
  constructor
  · rintro ⟨hreported, hperformed⟩
    -- an ok status means that every callback succeeded
    have hall : result = some .ok → AssignsOk copies := by
      intro hok st hst
      by_contra hne
      exact hreported ⟨_, hst, hne⟩ hok
    refine ⟨fun hconstructs => ?_, ?_⟩
    · by_contra hassigns
      exact hassigns (hall (hdropped hconstructs hassigns))
    · by_contra hnot
      have hok := hbad hnot
      exact hnot ((hdone hok (hall hok)).mp (hperformed hok))
  · rintro ⟨hnone, hgood⟩
    refine ⟨fun hfailed hok => ?_, fun hok => ?_⟩
    · exact status_ok (hpassed hok) (hnone (hpassed hok)) hfailed
    · exact (hdone hok (hnone (hpassed hok))).mpr hgood

/-- A call that nothing but a dropped failure can mislead. -/
theorem Accounts.truthful_iff_noneDropped (h : Accounts copies result done True) :
    Truthful copies result done ↔ NoneDropped copies :=
  h.truthful_iff.trans (and_iff_left trivial)

/-- A call that runs no callback is truthful if ok means that it is done. -/
theorem truthful_nil (hdone : result = some .ok → done) : Truthful [] result done :=
  ⟨fun ⟨_, hmem, _⟩ => (List.not_mem_nil hmem).elim, hdone⟩

end CopyCall

/-- What the callbacks of a map promise: a copy that reports ok has copied, and a key is equal to
itself. -/
structure HonestCallbacks {w : ℕ} {K V : Type*} (keyPolicy : ElementPolicy K)
    (valuePolicy : ElementPolicy V) (hashPolicy : HashPolicy w K) : Prop where
  key : keyPolicy.Faithful
  value : valuePolicy.Faithful
  refl : ∀ a, hashPolicy.equal a a = true

end Memkit
