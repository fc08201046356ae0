import Mathlib.Data.List.Basic
import Mathlib.Data.List.Perm.Basic
import Memkit.Foundations.Transition

/-! # Calls that do not show

Two ways to compare a run with the run in which some of its calls are not made, over arbitrary types:

* **`Mealy.lowOutputs`, `Mealy.purge`** — the calls of a machine are low or high; an observer sees the
  outputs of the low ones. `lowOutputs_of_unwinding` is the rule: a relation between the states of
  the two runs that a good high call keeps on one side, and a low call on both.
* **`Twin`** — two objects of one class whose members point to the same memory, as after a move that
  copies the members. What is found at the address of the source may matter to the destination, if
  its members point there. `Undisturbed` says that the destination answers as if the source had not
  been used, and that nothing is released by both. -/

namespace Mealy

variable {σ ι ο : Type*}

/-- The outputs of the calls of a sequence that are not high. -/
def lowOutputs (step : σ → ι → ο × σ) (high : ι → Bool) : σ → List ι → List ο
  | _, [] => []
  | s, i :: is =>
    if high i then lowOutputs step high (step s i).2 is
    else (step s i).1 :: lowOutputs step high (step s i).2 is

/-- The sequence without its high calls. -/
def purge (high : ι → Bool) (is : List ι) : List ι := is.filter fun i => !high i

variable {step : σ → ι → ο × σ} {high : ι → Bool} {good : σ → ι → Prop}

/-- **Unwinding rule**: if good high calls keep the state related to that of the run without them, and
good low calls answer alike in related states and keep them related, then the low outputs are those
of the sequence without its high calls, and the final states are related. -/
theorem lowOutputs_of_unwinding (R : σ → σ → Prop) {s t : σ} {is : List ι}
    (hgood : EveryCall step good s is)
    (hhigh : ∀ s t i, R s t → high i = true → good s i → R (step s i).2 t)
    (hlow : ∀ s t i, R s t → high i = false → good s i →
      (step s i).1 = (step t i).1 ∧ R (step s i).2 (step t i).2)
    (hR : R s t) :
    lowOutputs step high s is = outputs step t (purge high is) ∧
      R (final step s is) (final step t (purge high is)) := by
  induction is generalizing s t with
  | nil => exact ⟨rfl, hR⟩
  | cons i is ih =>
    unfold lowOutputs purge
    cases hi : high i with
    | true =>
      rw [if_pos rfl, List.filter_cons_of_neg (by simp [hi])]
      exact ih hgood.2 (hhigh s t i hR hi hgood.1)
    | false =>
      obtain ⟨hout, hnext⟩ := hlow s t i hR hi hgood.1
      obtain ⟨hrest, hfinal⟩ := ih hgood.2 hnext
      rw [if_neg (by simp), List.filter_cons_of_pos (by simp [hi]), hout, hrest]
      exact ⟨rfl, hfinal⟩

end Mealy

/-- Which of the two objects makes a call. -/
inductive Side
  | source
  | dest
  deriving DecidableEq, Repr

/-- What belongs to a side. -/
def Side.pick {α : Type*} (source dest : α) : Side → α
  | .source => source
  | .dest => dest

/-- A class whose objects have the members `H` and point to a memory `M`. -/
structure ObjectClass (H M E ι ο ρ : Type*) where
  /-- A call of an object, given what is found at the address of the other. -/
  call : Side → E → H → M → ι → ο × H × M
  /-- What is found at the address of an object with these members. -/
  shown : H → E
  /-- What the destructor does to the memory. -/
  destroy : H → M → M
  /-- What the destructor releases, in order. -/
  released : H → M → List ρ
  /-- What a move leaves of the members in the source. -/
  left : H → H

/-- The source of a move: it still points to the memory, or it does not, as it was destroyed or has
been set up anew over memory of its own; then it matters what is found at its address. -/
inductive TwinSource (H E : Type*)
  | sharing (members : H)
  | apart (found : E)

/-- Two objects over one memory. -/
structure Twin (H M E ρ : Type*) where
  source : TwinSource H E
  dest : H
  memory : M
  /-- What the destructor of the source has released of the memory. -/
  released : List ρ

/-- What happens to two objects. -/
inductive TwinCall (ι E : Type*)
  | dest (call : ι)
  | source (call : ι)
  /-- The source is destroyed, and `found` is then found at its address. -/
  | destroy (found : E)
  /-- The source is set up anew over memory of its own, or used there. -/
  | renew (found : E)

namespace TwinCall

variable {ι E : Type*}

/-- The calls that do not concern the destination. -/
def onSource : TwinCall ι E → Bool
  | .dest _ => false
  | _ => true

end TwinCall

namespace Twin

variable {H M E ι ο ρ : Type*} (cls : ObjectClass H M E ι ο ρ)

/-- What is found at the address of the source. -/
def atSource (s : Twin H M E ρ) : E :=
  match s.source with
  | .sharing members => cls.shown members
  | .apart found => found

/-- One call; what a source answers that has its own memory is left out. -/
def step (s : Twin H M E ρ) : TwinCall ι E → Option ο × Twin H M E ρ
  | .dest c =>
    let (answer, dest, memory) := cls.call .dest (s.atSource cls) s.dest s.memory c
    (some answer, { s with dest := dest, memory := memory })
  | .source c =>
    match s.source with
    | .apart _ => (none, s)
    | .sharing members =>
      let (answer, members, memory) := cls.call .source (cls.shown s.dest) members s.memory c
      (some answer, { s with source := .sharing members, memory := memory })
  | .destroy found =>
    match s.source with
    | .apart _ => (none, { s with source := .apart found })
    | .sharing members =>
      (none,
        { s with
          source := .apart found
          memory := cls.destroy members s.memory
          released := s.released ++ cls.released members s.memory })
  | .renew found => (none, { s with source := .apart found })

/-- The move constructor: the members are copied. -/
def moveConstruct (members : H) (memory : M) : Twin H M E ρ :=
  ⟨.sharing (cls.left members), members, memory, []⟩

/-- The move assignment, to an object that it first empties as the destructor does. -/
def moveAssign (old members : H) (memory : M) : Twin H M E ρ :=
  moveConstruct cls members (cls.destroy old memory)

/-- The destination answers as if the source were not used again, and its destructor will not release
what the destructor of the source has released. -/
def Undisturbed (s : Twin H M E ρ) (calls : List (TwinCall ι E)) : Prop :=
  Mealy.lowOutputs (step cls) TwinCall.onSource s calls =
      Mealy.outputs (step cls) s (Mealy.purge TwinCall.onSource calls) ∧
    let t := Mealy.final (step cls) s calls
    t.released.Disjoint (cls.released t.dest t.memory)

/-- What makes the calls on the source of two objects harmless: `sees` says that the destination
looks at the address of the source, `own` is an invariant of the members of the source, and `idle` is
the condition on the calls. -/
structure Harmless (sees own : H → Prop) (idle : Twin H M E ρ → TwinCall ι E → Prop) : Prop where
  blind : ∀ d, ¬ sees d → ∀ e e' m c, cls.call .dest e d m c = cls.call .dest e' d m c
  stays_blind : ∀ d, ¬ sees d → ∀ e m c, ¬ sees (cls.call .dest e d m c).2.1
  call : ∀ s h c, s.source = .sharing h → own h → idle s (.source c) →
    let r := cls.call .source (cls.shown s.dest) h s.memory c
    r.2.2 = s.memory ∧ own r.2.1 ∧ cls.shown r.2.1 = cls.shown h
  destroy : ∀ s h e, s.source = .sharing h → own h → idle s (.destroy e) →
    cls.destroy h s.memory = s.memory ∧ cls.released h s.memory = []
  found : ∀ s e, idle s (.destroy e) ∨ idle s (.renew e) → sees s.dest → e = s.atSource cls

variable {cls}

/-- The relation between a run and the run without the calls on the source. -/
structure SameDest (cls : ObjectClass H M E ι ο ρ) (sees own : H → Prop)
    (s t : Twin H M E ρ) : Prop where
  dest : s.dest = t.dest
  memory : s.memory = t.memory
  found : sees s.dest → s.atSource cls = t.atSource cls
  own : ∀ h, s.source = .sharing h → own h
  released : s.released = []

variable {sees own : H → Prop} {idle : Twin H M E ρ → TwinCall ι E → Prop} {s t : Twin H M E ρ}

/-- A harmless call on the source does not show. -/
theorem SameDest.high (hsame : SameDest cls sees own s t) (harmless : Harmless cls sees own idle)
    {c : TwinCall ι E} (hc : c.onSource = true) (hidle : idle s c) :
    SameDest cls sees own (step cls s c).2 t := by
  cases c with
  | dest c => cases hc
  | source c =>
    cases hsource : s.source with
    | apart found =>
      simp only [step, hsource]
      exact hsame
    | sharing h =>
      obtain ⟨hmemory, hown, hshown⟩ := harmless.call s h c hsource (hsame.own h hsource) hidle
      simp only [step, hsource, hmemory]
      refine ⟨hsame.dest, hsame.memory, fun hsees => ?_, ?_, hsame.released⟩
      · have hfound := hsame.found hsees
        simp only [atSource, hsource] at hfound ⊢
        rw [hshown]
        exact hfound
      · rintro _ ⟨⟩
        exact hown
  | destroy e =>
    have hfound : sees s.dest → e = t.atSource cls := fun hsees =>
      (harmless.found s e (.inl hidle) hsees).trans (hsame.found hsees)
    cases hsource : s.source with
    | apart found =>
      simp only [step, hsource]
      exact ⟨hsame.dest, hsame.memory, hfound, nofun, hsame.released⟩
    | sharing h =>
      obtain ⟨hmemory, hreleased⟩ := harmless.destroy s h e hsource (hsame.own h hsource) hidle
      simp only [step, hsource, hmemory, hreleased, List.append_nil]
      exact ⟨hsame.dest, hsame.memory, hfound, nofun, hsame.released⟩
  | renew e =>
    have hfound : sees s.dest → e = t.atSource cls := fun hsees =>
      (harmless.found s e (.inr hidle) hsees).trans (hsame.found hsees)
    exact ⟨hsame.dest, hsame.memory, hfound, nofun, hsame.released⟩

/-- A call of the destination answers alike. -/
theorem SameDest.low (hsame : SameDest cls sees own s t) (harmless : Harmless cls sees own idle)
    {c : TwinCall ι E} (hc : c.onSource = false) :
    (step cls s c).1 = (step cls t c).1 ∧
      SameDest cls sees own (step cls s c).2 (step cls t c).2 := by
  cases c with
  | dest c =>
    have hcall : cls.call .dest (s.atSource cls) s.dest s.memory c =
        cls.call .dest (t.atSource cls) t.dest t.memory c := by
      rw [← hsame.dest, ← hsame.memory]
      by_cases hsees : sees s.dest
      · rw [hsame.found hsees]
      · exact harmless.blind s.dest hsees _ _ _ _
    simp only [step, hcall, true_and]
    refine ⟨rfl, rfl, fun hsees => hsame.found ?_, hsame.own, hsame.released⟩
    by_contra hblind
    refine harmless.stays_blind t.dest ?_ _ _ _ hsees
    rw [← hsame.dest]
    exact hblind
  | source c => cases hc
  | destroy e => cases hc
  | renew e => cases hc

/-- **Harmless calls on the source do not disturb the destination.** -/
theorem undisturbed_of_harmless (harmless : Harmless cls sees own idle)
    (hown : ∀ h, s.source = .sharing h → own h) (hreleased : s.released = [])
    {calls : List (TwinCall ι E)} (hidle : Mealy.EveryCall (step cls) idle s calls) :
    Undisturbed cls s calls := by
  have hstart : SameDest cls sees own s s := ⟨rfl, rfl, fun _ => rfl, hown, hreleased⟩
  obtain ⟨hout, hfinal⟩ := Mealy.lowOutputs_of_unwinding (SameDest cls sees own) hidle
    (fun s t c hsame hc hgood => hsame.high harmless hc hgood)
    (fun s t c hsame hc _ => hsame.low harmless hc) hstart
  refine ⟨hout, ?_⟩
  show (Mealy.final (step cls) s calls).released.Disjoint _
  rw [hfinal.released]
  exact List.disjoint_nil_left _

/-- Calls on the source that are idle as long as the destination does not look there, after a start at
which it does not. -/
theorem Harmless.everyCall_of_blind (harmless : Harmless cls sees own idle)
    {calls : List (TwinCall ι E)} (hblind : ¬ sees s.dest) (hown : ∀ h, s.source = .sharing h → own h)
    (hidle : ∀ c ∈ calls, ∀ s, ¬ sees s.dest → idle s c) :
    Mealy.EveryCall (step cls) idle s calls := by
  induction calls generalizing s with
  | nil => trivial
  | cons c calls ih =>
    have hfirst := hidle c List.mem_cons_self s hblind
    refine ⟨hfirst, ih ?_ ?_ fun c hc => hidle c (List.mem_cons_of_mem _ hc)⟩
    · cases c with
      | dest c => exact harmless.stays_blind s.dest hblind _ _ _
      | source c =>
        unfold step
        cases s.source <;> exact hblind
      | destroy e =>
        unfold step
        cases s.source <;> exact hblind
      | renew e => exact hblind
    · cases c with
      | dest c => exact hown
      | source c =>
        cases hsource : s.source with
        | apart found =>
          simp only [step, hsource]
          nofun
        | sharing h =>
          obtain ⟨-, hown', -⟩ := harmless.call s h c hsource (hown h hsource) hfirst
          simp only [step, hsource]
          rintro _ ⟨⟩
          exact hown'
      | destroy e =>
        unfold step
        cases s.source <;> nofun
      | renew e => nofun

/-- Every move and every run after it, all of whose calls on the source meet the condition, leave the
destination undisturbed. -/
def SafeWhen (cls : ObjectClass H M E ι ο ρ) (idle : Twin H M E ρ → TwinCall ι E → Prop) : Prop :=
  ∀ members memory calls,
    (Mealy.EveryCall (step cls) idle (moveConstruct cls members memory) calls →
      Undisturbed cls (moveConstruct cls members memory) calls) ∧
    ∀ old, Mealy.EveryCall (step cls) idle (moveAssign cls old members memory) calls →
      Undisturbed cls (moveAssign cls old members memory) calls

/-- **Rule for moves**: what is left in the source meets the invariant. -/
theorem Harmless.safeWhen (harmless : Harmless cls sees own idle) (hown : ∀ h, own (cls.left h)) :
    SafeWhen cls idle := by
  intro members memory calls
  constructor
  · refine undisturbed_of_harmless harmless ?_ rfl
    rintro _ ⟨⟩
    exact hown members
  · intro old
    refine undisturbed_of_harmless harmless ?_ rfl
    rintro _ ⟨⟩
    exact hown members

end Twin
