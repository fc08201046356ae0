import Memkit.Foundations.BinaryHeap

/-! # Sparse indices

A set kept as the first `n` elements of a dense array, with a sparse array that says where each of
them is. The sparse array need not be initialised: an entry counts only if the dense array confirms
it.

* **`Linked`** — the sparse array knows the position of each element.
* **`Linked.mem_iff`** — the membership test with one read of each array.
* **`Linked.push`**, **`Linked.swapRemove`** — the element at the end, and the removal that moves the last
  element into the gap. -/

namespace SparseIndex

open BinaryHeap (items items_succ items_congr)

variable {α : Type*} {dense : ℕ → α} {sparse : α → ℕ} {n : ℕ} {x y : α}

/-- The sparse array gives the positions of the first `n` elements of the dense one. -/
def Linked (dense : ℕ → α) (sparse : α → ℕ) (n : ℕ) : Prop := ∀ i < n, sparse (dense i) = i

theorem mem_items : x ∈ items dense n ↔ ∃ i < n, dense i = x := by
  simp [items]

theorem linked_zero (dense : ℕ → α) (sparse : α → ℕ) : Linked dense sparse 0 :=
  fun i hi => absurd hi (Nat.not_lt_zero i)

/-- No element is twice in the dense array. -/
theorem Linked.nodup (h : Linked dense sparse n) : (items dense n).Nodup := by
  refine List.Nodup.map_on ?_ List.nodup_range
  intro i hi j hj heq
  rw [← h i (List.mem_range.mp hi), heq, h j (List.mem_range.mp hj)]

/-- **Membership**: the sparse array proposes a position and the dense array confirms it. -/
theorem Linked.mem_iff (h : Linked dense sparse n) :
    x ∈ items dense n ↔ sparse x < n ∧ dense (sparse x) = x := by
  rw [mem_items]
  constructor
  · rintro ⟨i, hi, rfl⟩
    rw [h i hi]
    exact ⟨hi, rfl⟩
  · rintro ⟨hlt, hx⟩
    exact ⟨sparse x, hlt, hx⟩

variable [DecidableEq α]

/-- **A new element** goes to the end. -/
theorem Linked.push (h : Linked dense sparse n) (hx : x ∉ items dense n) :
    Linked (Function.update dense n x) (Function.update sparse x n) (n + 1) ∧
      items (Function.update dense n x) (n + 1) = items dense n ++ [x] := by
  constructor
  · intro i hi
    by_cases hlast : i = n
    · rw [hlast, Function.update_self, Function.update_self]
    · have hlt : i < n := by omega
      have hne : dense i ≠ x := fun heq => hx (mem_items.mpr ⟨i, hlt, heq⟩)
      rw [Function.update_of_ne hlast, Function.update_of_ne hne, h i hlt]
  · rw [items_succ, Function.update_self]
    congr 1
    exact items_congr fun i hi => Function.update_of_ne hi.ne _ _

/-- **A removal** moves the last element into the gap. The sparse entry of the element that was
removed may be anything; if it is itself the last element, it is its entry that is overwritten. -/
theorem Linked.swapRemove (h : Linked dense sparse (n + 1)) (hx : x ∈ items dense (n + 1)) (k : ℕ) :
    Linked (Function.update dense (sparse x) (dense n))
        (Function.update (Function.update sparse (dense n) (sparse x)) x k) n ∧
      ∀ y, y ∈ items (Function.update dense (sparse x) (dense n)) n ↔
        y ∈ items dense (n + 1) ∧ y ≠ x := by
  obtain ⟨hpos, hdense⟩ := h.mem_iff.mp hx
  have hlast : sparse (dense n) = n := h n (Nat.lt_succ_self n)
  -- what stands at the positions that are left
  have hafter : ∀ i < n, Function.update dense (sparse x) (dense n) i ≠ x ∧
      Function.update sparse (dense n) (sparse x)
        (Function.update dense (sparse x) (dense n) i) = i := by
    intro i hi
    by_cases hgap : i = sparse x
    · subst hgap
      rw [Function.update_self, Function.update_self]
      refine ⟨fun heq => ?_, rfl⟩
      rw [heq] at hlast
      omega
    · rw [Function.update_of_ne hgap]
      have hi' : sparse (dense i) = i := h i (by omega)
      have hother : dense i ≠ dense n := by
        intro heq
        rw [heq, hlast] at hi'
        omega
      rw [Function.update_of_ne hother]
      refine ⟨fun heq => hgap ?_, hi'⟩
      rw [← heq, hi']
  constructor
  · intro i hi
    obtain ⟨hne, hindex⟩ := hafter i hi
    rw [Function.update_of_ne hne, hindex]
  · intro y
    constructor
    · intro hy
      obtain ⟨i, hi, rfl⟩ := mem_items.mp hy
      refine ⟨?_, (hafter i hi).1⟩
      by_cases hgap : i = sparse x
      · rw [hgap, Function.update_self]
        exact mem_items.mpr ⟨n, Nat.lt_succ_self n, rfl⟩
      · rw [Function.update_of_ne hgap]
        exact mem_items.mpr ⟨i, by omega, rfl⟩
    · rintro ⟨hy, hne⟩
      obtain ⟨i, hi, rfl⟩ := mem_items.mp hy
      by_cases hend : i = n
      · subst hend
        -- the last element is not the one removed, so the gap is before it
        have hgap : sparse x ≠ i := by
          intro heq
          rw [heq] at hdense
          exact hne hdense
        exact mem_items.mpr ⟨sparse x, by omega, Function.update_self _ _ _⟩
      · have hgap : i ≠ sparse x := by
          intro heq
          rw [heq] at hne
          exact hne hdense
        exact mem_items.mpr ⟨i, by omega, Function.update_of_ne hgap _ _⟩

end SparseIndex
