import Memkit.Sequences.DequeReference
import Memkit.Sequences.DList

/-! # The reference list

What a linked list over a pool is for: a sequence with room for a bounded number of elements, read
and changed at any index. -/

namespace Memkit

variable {V : Type*}

namespace Sequence

/-- Insert at an index, if there is room. -/
def insert (room : ℕ) (xs : List V) (index : ℕ) (value : V) : Status × List V :=
  if room ≤ xs.length then (.full, xs) else (.ok, xs.insertIdx index value)

/-- Insert at an index that is checked, of an element that may be missing. -/
def insertAt (room : ℕ) (xs : List V) (index : ℕ) (value : Option V) : Status × List V :=
  match value with
  | none => (.nullPtr, xs)
  | some value => if xs.length < index then (.invalid, xs) else insert room xs index value

/-- Remove the element at an index; `missing` is the status if there is none. -/
def take (xs : List V) (index : ℕ) (missing : Status) (out : Option V) :
    (Status × Option V) × List V :=
  match xs[index]? with
  | none => ((missing, out), xs)
  | some x => ((.ok, out.map fun _ => x), xs.eraseIdx index)

/-- Remove the first element that `pred` accepts. -/
def removeFirst (xs : List V) (pred : V → Bool) (out : Option V) :
    (Status × Option V) × List V :=
  match xs.findIdx? pred with
  | none => ((.notFound, out), xs)
  | some index => take xs index .invalid out

/-- The answer of a removal. -/
def answerRemoval (r : (Status × Option V) × List V) : Answer V × List V := (.ofOut r.1, r.2)

/-- Dispatch a call. -/
def call (room : ℕ) (xs : List V) : DList.Call V → Answer V × List V
  | .pushFront value =>
    let (st, xs) := insert room xs 0 value
    (.status st, xs)
  | .pushBack value =>
    let (st, xs) := insert room xs xs.length value
    (.status st, xs)
  | .insertAt index value =>
    let (st, xs) := insertAt room xs index value
    (.status st, xs)
  | .popFront out => answerRemoval (take xs 0 .empty out)
  | .popBack out => answerRemoval (take xs (xs.length - 1) .empty out)
  | .removeAt index out => answerRemoval (take xs index .invalid out)
  | .removeFirst pred out => answerRemoval (removeFirst xs pred out)
  | .peekFront out => (.ofOut (Deque.peek xs.head? .empty out), xs)
  | .peekBack out => (.ofOut (Deque.peek xs.getLast? .empty out), xs)
  | .peekAt index out => (.ofOut (Deque.peek xs[index]? .invalid out), xs)
  | .clear => (.done, [])
  | .forEach visit => (.ofVisits (visitLoop visit [] xs.zipIdx), xs)
  | .forEachReverse visit => (.ofVisits (visitLoop visit [] xs.zipIdx.reverse), xs)

/-! ## Facts about the reference -/

/-- Inserting where two parts meet. -/
theorem insertIdx_append (as bs : List V) (value : V) :
    (as ++ bs).insertIdx as.length value = as ++ value :: bs := by
  induction as with
  | nil => rfl
  | cons a as ih =>
    rw [List.cons_append, List.length_cons, List.insertIdx_succ_cons, ih, List.cons_append]

theorem take_eq_of_not_ok {xs : List V} {index : ℕ} {missing : Status} {out : Option V}
    (h : (take xs index missing out).1.1 ≠ .ok) : (take xs index missing out).2 = xs := by
  unfold take at h ⊢
  cases hx : xs[index]? with
  | none => rfl
  | some x =>
    rw [hx] at h
    exact absurd rfl h

theorem insert_eq_of_not_ok {room : ℕ} {xs : List V} {index : ℕ} {value : V}
    (h : (insert room xs index value).1 ≠ .ok) : (insert room xs index value).2 = xs := by
  unfold insert at h ⊢
  by_cases hroom : room ≤ xs.length
  · rw [if_pos hroom]
  · rw [if_neg hroom] at h
    exact absurd rfl h

/-- **A call that is not ok** leaves the sequence as it was. -/
theorem call_eq_of_not_ok {room : ℕ} {xs : List V} {c : DList.Call V} {st : Status}
    (hst : (call room xs c).1.status? = some st) (hne : st ≠ .ok) : (call room xs c).2 = xs := by
  cases c with
  | pushFront value => exact insert_eq_of_not_ok fun h => hne (Option.some.inj hst ▸ h)
  | pushBack value => exact insert_eq_of_not_ok fun h => hne (Option.some.inj hst ▸ h)
  | insertAt index value =>
    cases value with
    | none => rfl
    | some value =>
      simp only [call, insertAt] at hst ⊢
      by_cases hindex : xs.length < index
      · rw [if_pos hindex]
      · rw [if_neg hindex] at hst ⊢
        exact insert_eq_of_not_ok fun h => hne (Option.some.inj hst ▸ h)
  | popFront out => exact take_eq_of_not_ok fun h => hne (Option.some.inj hst ▸ h)
  | popBack out => exact take_eq_of_not_ok fun h => hne (Option.some.inj hst ▸ h)
  | removeAt index out => exact take_eq_of_not_ok fun h => hne (Option.some.inj hst ▸ h)
  | removeFirst pred out =>
    simp only [call, removeFirst, answerRemoval] at hst ⊢
    cases hfind : xs.findIdx? pred with
    | none => rfl
    | some index =>
      rw [hfind] at hst
      exact take_eq_of_not_ok fun h => hne (Option.some.inj hst ▸ h)
  | peekFront out => rfl
  | peekBack out => rfl
  | peekAt index out => rfl
  | clear => cases hst
  | forEach visit => rfl
  | forEachReverse visit => rfl

end Sequence

end Memkit
