import Memkit.Core.Answer
import Memkit.Foundations.LinkedChain

/-! # Walks over linked nodes

What `list_core` and `dlist_core` write in the same way: the search of `remove_first`, the loop of
`for_each` and the reading of the first or the last element. A walk takes a bound on its rounds and
gives `none` if they are not enough. -/

namespace Memkit

open LinkedChain

variable {V σ : Type*}

/-- The search of `remove_first`: the index of the first element that `pred` accepts. -/
def findLoop (pred : V → Bool) (contents : ℕ → V) (next : ℕ → Option ℕ) :
    ℕ → ℕ → Option ℕ → Option (Option ℕ)
  | _, _, none => some none
  | 0, _, some _ => none
  | rounds + 1, index, some current =>
    if pred (contents current) then some (some index)
    else findLoop pred contents next rounds (index + 1) (next current)

/-- The loop of `for_each`. -/
def forEachLoop (visit : List (V × ℕ) → Status) (contents : ℕ → V) (next : ℕ → Option ℕ) :
    ℕ → List (V × ℕ) → ℕ → Option ℕ → Option (Status × List (V × ℕ))
  | _, seen, _, none => some (.ok, seen)
  | 0, _, _, some _ => none
  | rounds + 1, seen, index, some current =>
    let seen := seen ++ [(contents current, index)]
    let st := visit seen
    if st ≠ .ok then some (st, seen)
    else forEachLoop visit contents next rounds seen (index + 1) (next current)

/-- What `peek_front` and `peek_back` do with the node at their end; `none` if it is null in a list
that is not empty. -/
def peekEnd (size : ℕ) (contents : ℕ → V) (node : Option ℕ) (out : Option V) :
    Option (Status × Option V) :=
  match out with
  | none => some (.nullPtr, none)
  | some out =>
    if size = 0 then some (.empty, some out) else node.map fun node => (.ok, some (contents node))

/-- The answer of a removal, if it has one. -/
def answerRemoval (s : σ) : Option ((Status × Option V) × σ) → Option (Answer V) × σ
  | none => (none, s)
  | some (result, s) => (some (.ofOut result), s)

variable {contents : ℕ → V} {next : ℕ → Option ℕ} {nodes : List ℕ} {rounds : ℕ}
  {current : Option ℕ}

/-- **The search of `remove_first`** finds the first element that the predicate accepts. -/
theorem findLoop_eq (pred : V → Bool) (start : ℕ) (h : Seg next current nodes none)
    (hrounds : nodes.length ≤ rounds) :
    findLoop pred contents next rounds start current =
      some (((nodes.map contents).findIdx? pred).map (· + start)) := by
  induction nodes generalizing rounds start current with
  | nil =>
    obtain rfl : current = none := h
    cases rounds <;> rfl
  | cons i is ih =>
    obtain ⟨rfl, hrest⟩ := h
    cases rounds with
    | zero => cases hrounds
    | succ rounds =>
      rw [findLoop, List.map_cons, List.findIdx?_cons]
      by_cases hpred : pred (contents i) = true
      · rw [if_pos hpred, if_pos hpred, Option.map_some, Nat.zero_add]
      · rw [if_neg hpred, if_neg hpred, ih (start + 1) hrest (Nat.le_of_succ_le_succ hrounds)]
        simp only [Option.map_map]
        congr 2
        funext k
        exact (Nat.succ_add_eq_add_succ k start).symm

/-- The search from the start of the list. -/
theorem findLoop_zero (pred : V → Bool) (h : Seg next current nodes none)
    (hrounds : nodes.length ≤ rounds) :
    findLoop pred contents next rounds 0 current = some ((nodes.map contents).findIdx? pred) := by
  rw [findLoop_eq pred 0 h hrounds]
  simp

/-- **The loop of `for_each`** visits the elements in order. -/
theorem forEachLoop_eq (visit : List (V × ℕ) → Status) {start : ℕ} {seen : List (V × ℕ)}
    (h : Seg next current nodes none) (hrounds : nodes.length ≤ rounds) :
    forEachLoop visit contents next rounds seen start current =
      some (visitLoop visit seen ((nodes.map contents).zipIdx start)) := by
  induction nodes generalizing rounds start seen current with
  | nil =>
    obtain rfl : current = none := h
    cases rounds <;> rfl
  | cons i is ih =>
    obtain ⟨rfl, hrest⟩ := h
    cases rounds with
    | zero => cases hrounds
    | succ rounds =>
      rw [forEachLoop, List.map_cons, List.zipIdx_cons, visitLoop]
      by_cases hst : visit (seen ++ [(contents i, start)]) ≠ .ok
      · simp only [if_pos hst]
      · simp only [if_neg hst]
        exact ih hrest (Nat.le_of_succ_le_succ hrounds)

end Memkit
