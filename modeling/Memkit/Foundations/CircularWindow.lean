import Memkit.Foundations.WrapCounter

/-! # Windows of a circular array

A window of `n` slots of a circular array of `c` slots, from slot `t` on: the slots met by counting
up from `t` modulo `c`, in that order. The lemmas say how a window grows and shrinks at either end
and that its slots are different. -/

namespace CircularWindow

/-- The slots of the window, in order. -/
def slots (c t n : ℕ) : List ℕ := (List.range n).map fun i => (t + i) % c

variable {c t n : ℕ}

@[simp] theorem length_slots (c t n : ℕ) : (slots c t n).length = n := by
  rw [slots, List.length_map, List.length_range]

@[simp] theorem slots_zero (c t : ℕ) : slots c t 0 = [] := rfl

@[simp] theorem getElem_slots (c t n i : ℕ) (h : i < (slots c t n).length) :
    (slots c t n)[i] = (t + i) % c := by
  simp [slots]

/-- The start of a window counts modulo the length of the array. -/
@[simp] theorem slots_mod (c t n : ℕ) : slots c (t % c) n = slots c t n := by
  apply List.map_congr_left
  intro i _
  rw [Nat.mod_add_mod]

/-- A window is cut in two. -/
theorem slots_add (c t m n : ℕ) : slots c t (m + n) = slots c t m ++ slots c ((t + m) % c) n := by
  rw [slots, List.range_add, List.map_append, List.map_map]
  congr 1
  apply List.map_congr_left
  intro i _
  show (t + (m + i)) % c = ((t + m) % c + i) % c
  rw [Nat.mod_add_mod, Nat.add_assoc]

/-- Growing at the end. -/
theorem slots_succ (c t n : ℕ) : slots c t (n + 1) = slots c t n ++ [(t + n) % c] := by
  rw [slots_add]
  simp [slots]

/-- Shrinking at the start. -/
theorem slots_cons (ht : t < c) (n : ℕ) : slots c t (n + 1) = t :: slots c ((t + 1) % c) n := by
  rw [Nat.add_comm, slots_add]
  simp [slots, Nat.mod_eq_of_lt ht]

/-- Growing at the start. -/
theorem slots_pred (ht : t < c) (n : ℕ) :
    slots c ((t + c - 1) % c) (n + 1) = (t + c - 1) % c :: slots c t n := by
  have hback : ((t + c - 1) % c + 1) % c = t := by
    rw [Nat.mod_add_mod, Nat.sub_add_cancel (by omega), Nat.add_mod_right, Nat.mod_eq_of_lt ht]
  rw [slots_cons (Nat.mod_lt _ (by omega)), hback]

/-- Dropping slots at the start. -/
theorem drop_slots (c t m n : ℕ) : (slots c t (m + n)).drop m = slots c ((t + m) % c) n := by
  rw [slots_add]
  exact List.drop_left' (length_slots c t m)

/-- A window that does not reach around the end. -/
theorem slots_of_le (h : t + n ≤ c) : slots c t n = (List.range n).map fun i => t + i := by
  apply List.map_congr_left
  intro i hi
  have hlt := List.mem_range.mp hi
  exact Nat.mod_eq_of_lt (by omega)

/-- The first slots of a window. -/
theorem take_slots {m : ℕ} (h : m ≤ n) : (slots c t n).take m = slots c t m := by
  rw [slots, ← List.map_take, List.take_range, min_eq_left h]
  rfl

/-- The slots are in the array. -/
theorem lt_of_mem_slots {i : ℕ} (hc : 0 < c) (h : i ∈ slots c t n) : i < c := by
  obtain ⟨k, -, rfl⟩ := List.mem_map.mp h
  exact Nat.mod_lt _ hc

/-- The slots are different. -/
theorem nodup_slots (hn : n ≤ c) : (slots c t n).Nodup := by
  refine List.Nodup.map_on ?_ List.nodup_range
  intro i hi j hj heq
  rw [List.mem_range] at hi hj
  rcases Nat.le_total i j with hij | hji
  · have hsum := WrapCounter.eq_of_mod_eq (a := t + i) (b := t + j) (by omega) (by omega) heq
    omega
  · have hsum := WrapCounter.eq_of_mod_eq (a := t + j) (b := t + i) (by omega) (by omega) heq.symm
    omega

/-- The slot after the window is not in it. -/
theorem end_notMem_slots (hn : n < c) : (t + n) % c ∉ slots c t n := by
  have hnodup := nodup_slots (t := t) (show n + 1 ≤ c from hn)
  rw [slots_succ, ← List.concat_eq_append, List.nodup_concat] at hnodup
  exact hnodup.1

/-- The slot before the window is not in it. -/
theorem start_notMem_slots (ht : t < c) (hn : n < c) : (t + c - 1) % c ∉ slots c t n := by
  have hnodup := nodup_slots (t := (t + c - 1) % c) (show n + 1 ≤ c from hn)
  rw [slots_pred ht] at hnodup
  exact (List.nodup_cons.mp hnodup).1

/-- A window of the whole array has each slot once. -/
theorem slots_perm (hc : 0 < c) (t : ℕ) : (slots c t c).Perm (List.range c) := by
  apply (List.subperm_of_subset (nodup_slots le_rfl) ?_).perm_of_length_le
  · simp
  · intro i hi
    exact List.mem_range.mpr (lt_of_mem_slots hc hi)

end CircularWindow
