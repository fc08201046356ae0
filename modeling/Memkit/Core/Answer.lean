import Memkit.Core.Status

/-! # What the calls of a sequence answer

The answers shared by the ring buffer, the lists and the queue, and the loop of their traversals: a
visitor may stop a traversal by its status, which may depend on all it has seen. -/

namespace Memkit

variable {V β : Type*}

/-- What a call returns, and what it writes to the memory of the caller. -/
inductive Answer (V : Type*)
  | status (result : Status)
  /-- The status, and what the out pointer points to afterwards; `none` for a null pointer. -/
  | value (result : Status) (out : Option V)
  /-- The status, and the elements visited with their indices. -/
  | visits (result : Status) (seen : List (V × ℕ))
  | done
  deriving DecidableEq, Repr

/-- The status that a call returns. -/
def Answer.status? : Answer V → Option Status
  | .status result => some result
  | .value result _ => some result
  | .visits result _ => some result
  | .done => none

/-- The answer of a call that returns a status and writes to an out pointer. -/
def Answer.ofOut (result : Status × Option V) : Answer V := .value result.1 result.2

/-- The answer of a traversal. -/
def Answer.ofVisits (result : Status × List (V × ℕ)) : Answer V := .visits result.1 result.2

/-- Visit the remaining elements after those in `seen`, until the visitor does not answer ok. -/
def visitLoop (visit : List β → Status) : List β → List β → Status × List β
  | seen, [] => (.ok, seen)
  | seen, x :: xs =>
    let st := visit (seen ++ [x])
    if st ≠ .ok then (st, seen ++ [x]) else visitLoop visit (seen ++ [x]) xs

/-- A visit of one more element, if the visits before it were ok. -/
def visitThen (r : Status × List β) (next : List β → Status × List β) : Status × List β :=
  if r.1 ≠ .ok then r else next r.2

/-- Visiting one list after another. -/
theorem visitLoop_append (visit : List β → Status) (seen xs ys : List β) :
    visitLoop visit seen (xs ++ ys) =
      visitThen (visitLoop visit seen xs) fun seen => visitLoop visit seen ys := by
  induction xs generalizing seen with
  | nil => rfl
  | cons x xs ih =>
    rw [List.cons_append, visitLoop, visitLoop]
    by_cases hst : visit (seen ++ [x]) ≠ .ok
    · simp only [if_pos hst, visitThen]
    · simp only [if_neg hst]
      exact ih (seen ++ [x])

/-- Visiting through a function of what is seen. -/
theorem visitLoop_map {α : Type*} (f : α → β) (visit : List β → Status) (seen xs : List α) :
    ((visitLoop (fun seen => visit (seen.map f)) seen xs).1,
        (visitLoop (fun seen => visit (seen.map f)) seen xs).2.map f) =
      visitLoop visit (seen.map f) (xs.map f) := by
  induction xs generalizing seen with
  | nil => rfl
  | cons x xs ih =>
    have hseen : (seen ++ [x]).map f = seen.map f ++ [f x] := by simp
    rw [List.map_cons, visitLoop, visitLoop, ← hseen]
    by_cases hst : visit ((seen ++ [x]).map f) ≠ .ok
    · simp only [if_pos hst]
    · simp only [if_neg hst]
      exact ih (seen ++ [x])

end Memkit
