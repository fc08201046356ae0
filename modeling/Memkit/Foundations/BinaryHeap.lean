import Mathlib.Tactic

/-! # Binary heaps in arrays

An array, as a function on its indices, read as a binary tree: the parent of node `i` is node
`(i - 1) / 2`. The order is any relation `le` that is transitive.

* **`IsHeap`** — no node is before its parent.
* **`HoleUp`, `HoleDown`** — a heap but for one node, which may have to go up or down; a swap moves
  the exception, and where no swap is due there is none.
* **`items`** — the elements; a swap permutes them. -/

namespace BinaryHeap

variable {V : Type*} {le : V → V → Prop} {f : ℕ → V} {n k c : ℕ}

/-- The parent of a node. -/
def parent (i : ℕ) : ℕ := (i - 1) / 2

/-- A parent comes before its children. -/
theorem parent_lt {i : ℕ} (hi : 0 < i) : parent i < i := by
  unfold parent
  omega

/-- The children of a node. -/
theorem parent_eq_iff {i : ℕ} (hi : 0 < i) : parent i = k ↔ i = k * 2 + 1 ∨ i = k * 2 + 2 := by
  unfold parent
  omega

/-- No node is before its parent. -/
def IsHeap (le : V → V → Prop) (f : ℕ → V) (n : ℕ) : Prop :=
  ∀ i, 0 < i → i < n → le (f (parent i)) (f i)

/-- The root comes first. -/
theorem IsHeap.root_le (h : IsHeap le f n) (hrefl : ∀ a, le a a)
    (htrans : ∀ a b c, le a b → le b c → le a c) {i : ℕ} (hi : i < n) : le (f 0) (f i) := by
  induction i using Nat.strong_induction_on with
  | _ i ih =>
    rcases Nat.eq_zero_or_pos i with rfl | hpos
    · exact hrefl _
    · have hlt := parent_lt hpos
      exact htrans _ _ _ (ih (parent i) hlt (by omega)) (h i hpos hi)

/-- Fewer nodes of a heap are a heap. -/
theorem IsHeap.mono (h : IsHeap le f n) {m : ℕ} (hm : m ≤ n) : IsHeap le f m :=
  fun i hpos hi => h i hpos (by omega)

/-! ## Going up -/

/-- A heap, but node `k` may be before its parent. -/
structure HoleUp (le : V → V → Prop) (f : ℕ → V) (n k : ℕ) : Prop where
  others : ∀ i, 0 < i → i < n → i ≠ k → le (f (parent i)) (f i)
  across : ∀ i, 0 < i → i < n → parent i = k → 0 < k → le (f (parent k)) (f i)

/-- A node added at the end. -/
theorem IsHeap.holeUp (h : IsHeap le f n) : HoleUp le f (n + 1) n where
  others i hpos hi hne := h i hpos (by omega)
  across i hpos hi hparent _ := by
    have hlt := parent_lt hpos
    omega

/-- **Swapping** the node with its parent. -/
theorem HoleUp.swap (h : HoleUp le f n k) (htrans : ∀ a b c, le a b → le b c → le a c)
    (hpos : 0 < k) (hk : k < n) (hle : le (f k) (f (parent k))) :
    HoleUp le (f ∘ Equiv.swap k (parent k)) n (parent k) := by
  have hlt := parent_lt hpos
  have hat : ∀ i, i ≠ k → i ≠ parent k → (f ∘ Equiv.swap k (parent k)) i = f i := by
    intro i hik hip
    rw [Function.comp_apply, Equiv.swap_apply_of_ne_of_ne hik hip]
  have hatk : (f ∘ Equiv.swap k (parent k)) k = f (parent k) := by
    rw [Function.comp_apply, Equiv.swap_apply_left]
  have hatp : (f ∘ Equiv.swap k (parent k)) (parent k) = f k := by
    rw [Function.comp_apply, Equiv.swap_apply_right]
  refine ⟨?_, ?_⟩
  · intro i hipos hi hip
    have hilt := parent_lt hipos
    by_cases hik : i = k
    · rw [hik, hatk, hatp]
      exact hle
    rw [hat i hik hip]
    by_cases hparent : parent i = k
    · rw [hparent, hatk]
      exact h.across i hipos hi hparent hpos
    · by_cases hsibling : parent i = parent k
      · -- the sibling is below the new parent, since it was below the old one
        rw [hsibling, hatp]
        refine htrans _ _ _ hle ?_
        rw [← hsibling]
        exact h.others i hipos hi hik
      · rw [hat _ hparent hsibling]
        exact h.others i hipos hi hik
  · intro i hipos hi hparent hppos
    have hgrand := parent_lt hppos
    rw [hat (parent (parent k)) (by omega) (by omega)]
    have hle' := h.others (parent k) hppos (by omega) (by omega)
    by_cases hik : i = k
    · rw [hik, hatk]
      exact hle'
    · have hilt := parent_lt hipos
      rw [hat i hik (by omega)]
      refine htrans _ _ _ hle' ?_
      rw [← hparent]
      exact h.others i hipos hi hik

/-- Where no swap is due, the array is a heap. -/
theorem HoleUp.finish (h : HoleUp le f n k) (hstop : 0 < k → le (f (parent k)) (f k)) :
    IsHeap le f n := by
  intro i hpos hi
  by_cases hik : i = k
  · rw [hik] at hpos ⊢
    exact hstop hpos
  · exact h.others i hpos hi hik

/-! ## Going down -/

/-- A heap, but node `k` may be after its children. -/
structure HoleDown (le : V → V → Prop) (f : ℕ → V) (n k : ℕ) : Prop where
  others : ∀ i, 0 < i → i < n → parent i ≠ k → le (f (parent i)) (f i)
  across : ∀ i, 0 < i → i < n → parent i = k → 0 < k → le (f (parent k)) (f i)

/-- The root replaced. -/
theorem IsHeap.holeDown (h : IsHeap le f n) {g : ℕ → V} (hg : ∀ i, 0 < i → i < n → g i = f i) :
    HoleDown le g n 0 where
  others i hpos hi hparent := by
    have hlt := parent_lt hpos
    rw [hg i hpos hi, hg (parent i) (Nat.pos_of_ne_zero hparent) (by omega)]
    exact h i hpos hi
  across i _ _ _ hzero := absurd hzero (Nat.lt_irrefl 0)

/-- **Swapping** the node with the child that comes first. -/
theorem HoleDown.swap (h : HoleDown le f n k) (hpos : 0 < c) (hc : c < n) (hparent : parent c = k)
    (hle : le (f c) (f k)) (hfirst : ∀ i, 0 < i → i < n → parent i = k → i ≠ c → le (f c) (f i)) :
    HoleDown le (f ∘ Equiv.swap k c) n c := by
  have hlt := parent_lt hpos
  have hat : ∀ i, i ≠ k → i ≠ c → (f ∘ Equiv.swap k c) i = f i := by
    intro i hik hic
    rw [Function.comp_apply, Equiv.swap_apply_of_ne_of_ne hik hic]
  have hatk : (f ∘ Equiv.swap k c) k = f c := by
    rw [Function.comp_apply, Equiv.swap_apply_left]
  have hatc : (f ∘ Equiv.swap k c) c = f k := by
    rw [Function.comp_apply, Equiv.swap_apply_right]
  refine ⟨?_, ?_⟩
  · intro i hipos hi hnot
    have hilt := parent_lt hipos
    by_cases hic : i = c
    · rw [hic, hparent, hatk, hatc]
      exact hle
    by_cases hik : i = k
    · -- the node above: its child is now the child that came first
      rw [hik] at hipos hilt hnot ⊢
      rw [hatk, hat (parent k) (by omega) hnot]
      exact h.across c hpos hc hparent hipos
    · rw [hat i hik hic]
      by_cases hsibling : parent i = k
      · rw [hsibling, hatk]
        exact hfirst i hipos hi hsibling hic
      · rw [hat (parent i) hsibling hnot]
        exact h.others i hipos hi hsibling
  · intro i hipos hi hip _
    have hilt := parent_lt hipos
    rw [hparent, hatk, hat i (by omega) (by omega), ← hip]
    exact h.others i hipos hi (by omega)

/-- Where no swap is due, the array is a heap. -/
theorem HoleDown.finish (h : HoleDown le f n k)
    (hstop : ∀ i, 0 < i → i < n → parent i = k → le (f k) (f i)) : IsHeap le f n := by
  intro i hpos hi
  by_cases hparent : parent i = k
  · rw [hparent]
    exact hstop i hpos hi hparent
  · exact h.others i hpos hi hparent

/-! ## The elements -/

/-- The elements, in the order of the array. -/
def items (f : ℕ → V) (n : ℕ) : List V := (List.range n).map f

@[simp] theorem length_items (f : ℕ → V) (n : ℕ) : (items f n).length = n := by
  rw [items, List.length_map, List.length_range]

theorem items_succ (f : ℕ → V) (n : ℕ) : items f (n + 1) = items f n ++ [f n] := by
  rw [items, List.range_succ, List.map_append]
  rfl

theorem items_cons (f : ℕ → V) (n : ℕ) : items f (n + 1) = f 0 :: items (f ∘ Nat.succ) n := by
  rw [items, List.range_succ_eq_map, List.map_cons, List.map_map]
  rfl

/-- Only the nodes of the array matter. -/
theorem items_congr {g : ℕ → V} (h : ∀ i < n, g i = f i) : items g n = items f n :=
  List.map_congr_left fun i hi => h i (List.mem_range.mp hi)

/-- **A swap** permutes the elements. -/
theorem items_swap (f : ℕ → V) {i j : ℕ} (hi : i < n) (hj : j < n) :
    (items (f ∘ Equiv.swap i j) n).Perm (items f n) := by
  have hmap : items (f ∘ Equiv.swap i j) n = ((List.range n).map (Equiv.swap i j)).map f := by
    rw [items, List.map_map]
  rw [hmap]
  refine List.Perm.map f ?_
  refine (List.perm_ext_iff_of_nodup (List.nodup_range.map (Equiv.injective _))
    List.nodup_range).mpr fun m => ?_
  have hbound : ∀ m, m < n → Equiv.swap i j m < n := by
    intro m hm
    rw [Equiv.swap_apply_def]
    split
    · exact hj
    · split
      · exact hi
      · exact hm
  rw [List.mem_map, List.mem_range]
  constructor
  · rintro ⟨l, hl, rfl⟩
    exact hbound l (List.mem_range.mp hl)
  · intro hm
    exact ⟨Equiv.swap i j m, List.mem_range.mpr (hbound m hm), Equiv.swap_apply_self i j m⟩

end BinaryHeap
