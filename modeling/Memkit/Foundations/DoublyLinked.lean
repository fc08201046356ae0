import Memkit.Foundations.LinkedChain

/-! # Lists with two ends

A list with a pointer to its last node, linked forwards only or in both directions, and null at its
ends: a chain along `next` from the head, and the reverse chain along `prev` from the tail.

* **`Tailed`** — the links spell out a list, and the tail is its last node.
* **`Tailed.insert`, `Tailed.unlink`** — surgery at a place given by the nodes before and after it.
* **`Doubly`** — the two links spell out a list and its reverse.
* **`Doubly.insert`, `Doubly.unlink`** — the same surgery on both links.
* **`Doubly.next_eq_some_iff`** — the two links are inverse to each other. -/

namespace LinkedChain

variable {α : Type*}

/-! ## Singly linked lists with a tail pointer -/

/-- The links spell out `xs` from `head`, and `tail` is the last node. -/
structure Tailed (next : α → Option α) (head tail : Option α) (xs : List α) : Prop where
  forward : Seg next head xs none
  tail_eq : tail = xs.getLast?

section Tailed

variable {next next' : α → Option α} {head tail : Option α} {xs ys : List α} {x : α}

theorem tailed_nil (next : α → Option α) : Tailed next none none [] := ⟨rfl, rfl⟩

theorem Tailed.head_eq (h : Tailed next head tail xs) : head = xs.head? := by
  simpa using h.forward.start_eq

/-- What follows a node. -/
theorem Tailed.next_eq (h : Tailed next head tail (xs ++ x :: ys)) : next x = ys.head? := by
  simpa using h.forward.next_eq

/-- **Frame rule**: only the links of the nodes of the list matter. -/
theorem Tailed.congr (h : Tailed next head tail xs) (hnext : ∀ x ∈ xs, next' x = next x) :
    Tailed next' head tail xs :=
  ⟨(seg_congr hnext).mpr h.forward, h.tail_eq⟩

variable [DecidableEq α]

/-- **Inserting** a node between `xs` and `ys`. -/
theorem Tailed.insert (h : Tailed next head tail (xs ++ ys)) (hnodup : (xs ++ ys).Nodup)
    (hx : x ∉ xs ++ ys) :
    Tailed (setNext (Function.update next x ys.head?) xs.getLast? (some x))
      (setStart head xs.getLast? (some x)) (setStart tail ys.head? (some x)) (xs ++ x :: ys) := by
  constructor
  · apply Seg.insert _ hnodup hx
    · rw [Function.update_self, Option.or_none]
    · exact (seg_update hx _).mpr h.forward
  · rw [h.tail_eq]
    cases ys with
    | nil => simp [setStart]
    | cons y ys => simp [setStart, List.getLast?_append]

/-- **Unlinking** a node between `xs` and `ys`. -/
theorem Tailed.unlink (h : Tailed next head tail (xs ++ x :: ys)) (hnodup : (xs ++ x :: ys).Nodup) :
    Tailed (setNext next xs.getLast? ys.head?) (setStart head xs.getLast? ys.head?)
      (setStart tail ys.head? xs.getLast?) (xs ++ ys) := by
  constructor
  · rw [← h.next_eq]
    exact h.forward.unlink hnodup
  · rw [h.tail_eq]
    cases ys with
    | nil => simp [setStart]
    | cons y ys => simp [setStart, List.getLast?_append]

end Tailed

/-! ## Doubly linked lists -/

/-- The links spell out `xs` from `head` to `tail`, and back. -/
structure Doubly (next prev : α → Option α) (head tail : Option α) (xs : List α) : Prop where
  forward : Seg next head xs none
  backward : Seg prev tail xs.reverse none

variable {next prev next' prev' : α → Option α} {head tail : Option α} {xs ys : List α} {x y : α}

theorem doubly_nil (next prev : α → Option α) : Doubly next prev none none [] := ⟨rfl, rfl⟩

theorem Doubly.head_eq (h : Doubly next prev head tail xs) : head = xs.head? := by
  simpa using h.forward.start_eq

theorem Doubly.tail_eq (h : Doubly next prev head tail xs) : tail = xs.getLast? := by
  simpa using h.backward.start_eq

/-- What follows a node. -/
theorem Doubly.next_eq (h : Doubly next prev head tail (xs ++ x :: ys)) : next x = ys.head? := by
  simpa using h.forward.next_eq

/-- What precedes a node. -/
theorem Doubly.prev_eq (h : Doubly next prev head tail (xs ++ x :: ys)) :
    prev x = xs.getLast? := by
  have hback := h.backward
  rw [List.reverse_append, List.reverse_cons, List.append_assoc, List.singleton_append] at hback
  simpa using hback.next_eq

/-- **Frame rule**: only the links of the nodes of the list matter. -/
theorem Doubly.congr (h : Doubly next prev head tail xs) (hnext : ∀ x ∈ xs, next' x = next x)
    (hprev : ∀ x ∈ xs, prev' x = prev x) : Doubly next' prev' head tail xs := by
  refine ⟨(seg_congr hnext).mpr h.forward, (seg_congr fun x hx => ?_).mpr h.backward⟩
  exact hprev x (List.mem_reverse.mp hx)

/-- **The links are inverse** to each other. -/
theorem Doubly.next_eq_some_iff (h : Doubly next prev head tail xs) (hx : x ∈ xs) (hy : y ∈ xs) :
    next x = some y ↔ prev y = some x := by
  constructor
  · intro hnext
    obtain ⟨as, bs, rfl⟩ := List.append_of_mem hx
    rw [h.next_eq] at hnext
    obtain ⟨cs, rfl⟩ := List.head?_eq_some_iff.mp hnext
    rw [← List.singleton_append, ← List.append_assoc] at h
    rw [h.prev_eq, List.getLast?_concat]
  · intro hprev
    obtain ⟨as, bs, rfl⟩ := List.append_of_mem hy
    rw [h.prev_eq] at hprev
    obtain ⟨cs, rfl⟩ := List.getLast?_eq_some_iff.mp hprev
    rw [List.append_assoc, List.singleton_append] at h
    rw [h.next_eq, List.head?_cons]

variable [DecidableEq α]

/-- **Inserting** a node between `xs` and `ys`. -/
theorem Doubly.insert (h : Doubly next prev head tail (xs ++ ys)) (hnodup : (xs ++ ys).Nodup)
    (hx : x ∉ xs ++ ys) :
    Doubly (setNext (Function.update next x ys.head?) xs.getLast? (some x))
      (setNext (Function.update prev x xs.getLast?) ys.head? (some x))
      (setStart head xs.getLast? (some x)) (setStart tail ys.head? (some x)) (xs ++ x :: ys) := by
  constructor
  · apply Seg.insert _ hnodup hx
    · rw [Function.update_self, Option.or_none]
    · exact (seg_update hx _).mpr h.forward
  · have hback := h.backward
    have hout : x ∉ ys.reverse ++ xs.reverse := by
      rw [← List.reverse_append, List.mem_reverse]
      exact hx
    rw [List.reverse_append] at hback
    rw [List.reverse_append, List.reverse_cons, List.append_assoc, List.singleton_append,
      ← List.getLast?_reverse]
    apply Seg.insert _ _ hout
    · rw [Function.update_self, Option.or_none, List.head?_reverse]
    · exact (seg_update hout _).mpr hback
    · rw [← List.reverse_append]
      exact List.nodup_reverse.mpr hnodup

/-- **Unlinking** a node between `xs` and `ys`. -/
theorem Doubly.unlink (h : Doubly next prev head tail (xs ++ x :: ys))
    (hnodup : (xs ++ x :: ys).Nodup) :
    Doubly (setNext next xs.getLast? ys.head?) (setNext prev ys.head? xs.getLast?)
      (setStart head xs.getLast? ys.head?) (setStart tail ys.head? xs.getLast?) (xs ++ ys) := by
  have hrev : (xs ++ x :: ys).reverse = ys.reverse ++ x :: xs.reverse := by simp
  constructor
  · rw [← h.next_eq]
    exact h.forward.unlink hnodup
  · have hback := h.backward
    rw [hrev] at hback
    have hunlinked := hback.unlink (hrev ▸ List.nodup_reverse.mpr hnodup)
    rw [h.prev_eq, List.getLast?_reverse, ← List.reverse_append] at hunlinked
    exact hunlinked

end LinkedChain
