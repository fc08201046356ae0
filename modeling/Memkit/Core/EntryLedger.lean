import Memkit.Core.Status
import Memkit.Foundations.ObjectLedger

/-! # The objects of an entry

An entry of a map holds two objects, its key and its value. They are constructed one after the
other, and destroyed together. -/

namespace Memkit

/-- The two objects of an entry. -/
inductive Part
  | key
  | value
  deriving DecidableEq, Repr

open Ledger (Event)

namespace EntryLedger

variable {ι : Type*}

/-- Both objects of the entries in `live`. -/
def bothParts (live : Set ι) : Set (Part × ι) := {place | place.2 ∈ live}

/-- The copies of a key and of a value to an entry, which have these statuses: after a failed copy of
the value the key is destroyed. -/
def constructBoth (i : ι) (keySt valueSt : Status) : List (Event (Part × ι)) :=
  if keySt ≠ .ok then [.construct (.key, i) false]
  else if valueSt ≠ .ok then
    [.construct (.key, i) true, .construct (.value, i) false, .destroy (.key, i)]
  else [.construct (.key, i) true, .construct (.value, i) true]

/-- The end of both objects of an entry. -/
def destroyBoth (i : ι) : List (Event (Part × ι)) := [.destroy (.key, i), .destroy (.value, i)]

variable [DecidableEq ι] {l : Ledger (Part × ι)} {live : Set ι} {i : ι} {keySt valueSt : Status}

theorem replay_constructBoth (h : l.Holds (bothParts live)) (hi : i ∉ live) (hkey : keySt = .ok)
    (hvalue : valueSt = .ok) :
    (l.replay (constructBoth i keySt valueSt)).Holds (bothParts (insert i live)) := by
  have hboth := (h.construct (a := (.key, i)) hi).construct (a := (.value, i)) (by
    rintro (heq | hmem)
    · cases heq
    · exact hi hmem)
  rw [constructBoth, if_neg (not_not.mpr hkey), if_neg (not_not.mpr hvalue)]
  refine (congrArg (Ledger.Holds _) ?_).mp hboth
  ext ⟨part, j⟩
  cases part <;> simp [bothParts]

/-- A failed copy leaves no object behind. -/
theorem replay_constructBoth_fail (h : l.Holds (bothParts live)) (hi : i ∉ live)
    (hfail : ¬ (keySt = .ok ∧ valueSt = .ok)) :
    (l.replay (constructBoth i keySt valueSt)).Holds (bothParts live) := by
  unfold constructBoth
  by_cases hkey : keySt ≠ .ok
  · rw [if_pos hkey]
    exact h.construct_fail (a := (.key, i)) hi
  · have hvalue : valueSt ≠ .ok := fun hok => hfail ⟨not_not.mp hkey, hok⟩
    rw [if_neg hkey, if_pos hvalue]
    have hkeyed := h.construct (a := (.key, i)) hi
    have hfailed := hkeyed.construct_fail (a := (.value, i)) (by
      rintro (heq | hmem)
      · cases heq
      · exact hi hmem)
    have hundone := hfailed.destroy (Set.mem_insert _ _)
    rwa [Set.insert_sdiff_self_of_notMem (s := bothParts live) hi] at hundone

theorem replay_destroyBoth (h : l.Holds (bothParts live)) (hi : i ∈ live) :
    (l.replay (destroyBoth i)).Holds (bothParts (live \ {i})) := by
  have hboth := (h.destroy (a := (.key, i)) hi).destroy (a := (.value, i)) ⟨hi, by simp⟩
  refine (congrArg (Ledger.Holds _) ?_).mp hboth
  ext ⟨part, j⟩
  cases part <;> simp [bothParts]

/-- The end of all entries, one after the other. -/
theorem replay_flatMap_destroyBoth {is : List ι} (h : l.Holds (bothParts {i | i ∈ is}))
    (hnodup : is.Nodup) : (l.replay (is.flatMap destroyBoth)).Holds ∅ := by
  induction is generalizing l with
  | nil => exact (congrArg (Ledger.Holds l) (by ext; simp [bothParts])).mp h
  | cons i is ih =>
    obtain ⟨hnot, hnodup⟩ := List.nodup_cons.mp hnodup
    rw [List.flatMap_cons, Ledger.replay_append]
    refine ih ?_ hnodup
    have hrest := replay_destroyBoth h (i := i) List.mem_cons_self
    rw [Ledger.setOf_mem_perm (List.Perm.refl (i :: is))] at hrest
    rwa [Set.insert_sdiff_self_of_notMem (s := {j | j ∈ is}) hnot] at hrest

end EntryLedger

end Memkit
