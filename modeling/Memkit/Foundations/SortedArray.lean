import Memkit.Foundations.BinaryHeap

/-! # Sorted arrays

The beginning of an array, searched by halving and shifted by one element at a time.

* **`bisect`** — the search, by the direction in which each element points: negative before what is
  sought, positive behind it, zero at it.
* **`openGap`**, **`closeGap`** — the loops that move the elements from an index on up or down.
* **`items_openGap`**, **`items_closeGap`** — what they do to the list of elements. -/

namespace SortedArray

open BinaryHeap (items items_succ items_congr length_items)

variable {α : Type*} {f : ℕ → α} {i j k n m : ℕ} {dir : ℕ → ℤ} {lo hi : ℕ}

/-! ## Searching -/

/-- Halve `[lo, hi)` until the element is found; `rounds` bounds the loop. -/
def bisect (dir : ℕ → ℤ) : ℕ → ℕ → ℕ → Bool × ℕ
  | 0, lo, _ => (false, lo)
  | rounds + 1, lo, hi =>
    if lo < hi then
      let mid := lo + (hi - lo) / 2
      if dir mid < 0 then bisect dir rounds (mid + 1) hi
      else if 0 < dir mid then bisect dir rounds lo mid
      else (true, mid)
    else (false, lo)

/-- The elements before one that is not behind what is sought are before it. -/
def Graded (dir : ℕ → ℤ) (n : ℕ) : Prop := ∀ i j, i < j → j < n → dir j ≤ 0 → dir i < 0

/-- What is behind stays behind. -/
theorem Graded.pos (h : Graded dir n) (hij : i < j) (hj : j < n) (hi : 0 ≤ dir i) : 0 < dir j := by
  by_contra hle
  have hlt := h i j hij hj (not_lt.mp hle)
  omega

/-- The search ends at the element, or at the first one behind what is sought. -/
def Found (dir : ℕ → ℤ) (n : ℕ) : Bool × ℕ → Prop
  | (true, k) => k < n ∧ dir k = 0
  | (false, k) => k ≤ n ∧ (∀ i < k, dir i < 0) ∧ ∀ i, k ≤ i → i < n → 0 < dir i

/-- **The search**: what is before `lo` is before, and what is from `hi` on is behind. -/
theorem bisect_found (h : Graded dir n) (rounds : ℕ) (hle : lo ≤ hi) (hhi : hi ≤ n)
    (hrounds : hi - lo ≤ rounds) (hbefore : ∀ i < lo, dir i < 0)
    (hbehind : ∀ i, hi ≤ i → i < n → 0 < dir i) : Found dir n (bisect dir rounds lo hi) := by
  induction rounds generalizing lo hi with
  | zero =>
    obtain rfl : lo = hi := by omega
    exact ⟨hhi, hbefore, hbehind⟩
  | succ rounds ih =>
    rw [bisect]
    by_cases hlt : lo < hi
    · rw [if_pos hlt]
      dsimp only
      generalize hmid : lo + (hi - lo) / 2 = mid
      have hmidlo : lo ≤ mid := by omega
      have hmidhi : mid < hi := by omega
      by_cases hneg : dir mid < 0
      · rw [if_pos hneg]
        refine ih hmidhi hhi (by omega) ?_ hbehind
        intro i hi'
        by_cases heq : i = mid
        · rw [heq]
          exact hneg
        · exact h i mid (by omega) (by omega) hneg.le
      · rw [if_neg hneg]
        by_cases hpos : 0 < dir mid
        · rw [if_pos hpos]
          refine ih hmidlo (by omega) (by omega) hbefore ?_
          intro i hmi hi'
          by_cases heq : i = mid
          · rw [heq]
            exact hpos
          · exact h.pos (i := mid) (by omega) hi' (not_lt.mp hneg)
        · rw [if_neg hpos]
          exact ⟨by omega, by omega⟩
    · rw [if_neg hlt]
      obtain rfl : lo = hi := by omega
      exact ⟨hhi, hbefore, hbehind⟩

/-- The search of the whole array. -/
theorem bisect_spec (h : Graded dir n) : Found dir n (bisect dir n 0 n) :=
  bisect_found h n (Nat.zero_le n) le_rfl le_rfl (fun _ hi => absurd hi (Nat.not_lt_zero _))
    fun _ hn hi => absurd hi (Nat.not_lt.mpr hn)

/-! ## Shifting -/

/-- Move the elements from `index` on up by one, the last one first. -/
def openGap (index : ℕ) : ℕ → (ℕ → α) → ℕ → α
  | 0, f => f
  | i + 1, f => if index < i + 1 then openGap index i (Function.update f (i + 1) (f i)) else f

/-- Move `rounds` elements from `i` on down by one, the first one first. -/
def closeGap : ℕ → ℕ → (ℕ → α) → ℕ → α
  | 0, _, f => f
  | rounds + 1, i, f => closeGap rounds (i + 1) (Function.update f (i - 1) (f i))

/-- A gap behind the last element needs no moves. -/
theorem openGap_of_le (h : n ≤ i) (f : ℕ → α) : openGap i n f = f := by
  cases n with
  | zero => rfl
  | succ n => rw [openGap, if_neg (by omega)]

/-- No element is lost on the way up. -/
theorem openGap_apply (index n : ℕ) (f : ℕ → α) (j : ℕ) :
    openGap index n f j = if index < j ∧ j ≤ n then f (j - 1) else f j := by
  induction n generalizing f with
  | zero =>
    have hout : ¬ (index < j ∧ j ≤ 0) := by omega
    rw [openGap, if_neg hout]
  | succ i ih =>
    rw [openGap]
    by_cases hlt : index < i + 1
    · rw [if_pos hlt, ih]
      by_cases hj : j = i + 1
      · subst hj
        rw [if_neg (by omega), if_pos ⟨hlt, le_rfl⟩, Function.update_self, Nat.add_sub_cancel]
      · have hiff : (index < j ∧ j ≤ i) ↔ (index < j ∧ j ≤ i + 1) := by omega
        rw [Function.update_of_ne hj]
        by_cases hin : index < j ∧ j ≤ i
        · rw [if_pos hin, if_pos (hiff.mp hin), Function.update_of_ne (by omega)]
        · rw [if_neg hin, if_neg (mt hiff.mpr hin)]
    · rw [if_neg hlt, if_neg (by omega)]

/-- No element is lost on the way down. -/
theorem closeGap_apply (rounds i : ℕ) (hi : 0 < i) (f : ℕ → α) (j : ℕ) :
    closeGap rounds i f j = if i ≤ j + 1 ∧ j + 1 < i + rounds then f (j + 1) else f j := by
  induction rounds generalizing i f with
  | zero => rw [closeGap, if_neg (by omega)]
  | succ rounds ih =>
    rw [closeGap, ih (i + 1) (Nat.succ_pos i)]
    by_cases hj : j + 1 = i
    · have hji : j = i - 1 := by omega
      rw [if_neg (by omega), if_pos (by omega), hj, hji, Function.update_self]
    · have hiff : (i + 1 ≤ j + 1 ∧ j + 1 < i + 1 + rounds) ↔
          (i ≤ j + 1 ∧ j + 1 < i + (rounds + 1)) := by omega
      by_cases hin : i + 1 ≤ j + 1 ∧ j + 1 < i + 1 + rounds
      · rw [if_pos hin, if_pos (hiff.mp hin), Function.update_of_ne (by omega)]
      · rw [if_neg hin, if_neg (mt hiff.mpr hin), Function.update_of_ne (by omega)]

/-! ## The list of elements -/

/-- An element of the list by its index. -/
theorem getElem?_items (f : ℕ → α) (n i : ℕ) :
    (items f n)[i]? = if i < n then some (f i) else none := by
  rw [items, List.getElem?_map]
  by_cases hi : i < n
  · rw [List.getElem?_range hi, if_pos hi, Option.map_some]
  · rw [List.getElem?_eq_none (by rw [List.length_range]; omega), if_neg hi, Option.map_none]

/-- A relation between the elements in order, by index. -/
theorem pairwise_items {r : α → α → Prop} :
    (items f n).Pairwise r ↔ ∀ i j, i < j → j < n → r (f i) (f j) := by
  rw [items, List.pairwise_map]
  constructor
  · intro h i j hij hj
    have hget := List.pairwise_iff_getElem.mp h i j (by rw [List.length_range]; omega)
      (by rwa [List.length_range]) hij
    rwa [List.getElem_range, List.getElem_range] at hget
  · intro h
    exact List.pairwise_lt_range.imp_of_mem fun {i j} _ hj hij => h i j hij (List.mem_range.mp hj)

/-- The elements before an index. -/
theorem mem_take_items (hi : i ≤ n) {x : α} : x ∈ (items f n).take i ↔ ∃ j < i, f j = x := by
  rw [items, ← List.map_take, List.take_range, min_eq_left hi]
  simp

/-- The elements from an index on. -/
theorem mem_drop_items {x : α} : x ∈ (items f n).drop i ↔ ∃ j, i ≤ j ∧ j < n ∧ f j = x := by
  rw [List.mem_drop_iff_getElem]
  constructor
  · rintro ⟨j, hj, rfl⟩
    rw [length_items] at hj
    exact ⟨i + j, by omega, by omega, by simp [items]⟩
  · rintro ⟨j, hij, hj, rfl⟩
    exact ⟨j - i, by rw [length_items]; omega, by simp [items, hij]⟩

/-- The elements around one of them. -/
theorem items_split (hi : i < n) (f : ℕ → α) :
    items f n = (items f n).take i ++ f i :: (items f n).drop (i + 1) := by
  have hlen : i < (items f n).length := by rwa [length_items]
  have hget : (items f n).get ⟨i, hlen⟩ = f i := by simp [items]
  rw [← hget, List.get_eq_getElem, ← List.drop_eq_getElem_cons hlen, List.take_append_drop]

/-- The first `i` elements, another one, and those from `k` on, by index. -/
theorem getElem?_take_cons_drop (f : ℕ → α) (hi : i ≤ n) (k : ℕ) (x : α) (j : ℕ) :
    ((items f n).take i ++ x :: (items f n).drop k)[j]? =
      if j < i then some (f j) else if j = i then some x
      else if k + (j - i - 1) < n then some (f (k + (j - i - 1))) else none := by
  have hlen : ((items f n).take i).length = i := by rw [List.length_take, length_items, min_eq_left hi]
  by_cases hlt : j < i
  · rw [List.getElem?_append_left (by rwa [hlen]), List.getElem?_take_of_lt hlt, getElem?_items,
      if_pos hlt, if_pos (hlt.trans_le hi)]
  · rw [List.getElem?_append_right (by rw [hlen]; omega), hlen, if_neg hlt]
    by_cases heq : j = i
    · rw [if_pos heq, heq, Nat.sub_self, List.getElem?_cons_zero]
    · have hsucc : j - i = j - i - 1 + 1 := by omega
      rw [if_neg heq, hsucc, List.getElem?_cons_succ, List.getElem?_drop, getElem?_items,
        Nat.add_sub_cancel]

/-- **Replacing** an element. -/
theorem items_update (hi : i < n) (f : ℕ → α) (x : α) :
    items (Function.update f i x) n = (items f n).take i ++ x :: (items f n).drop (i + 1) := by
  apply List.ext_getElem?
  intro j
  rw [getElem?_take_cons_drop f hi.le, getElem?_items]
  by_cases hlt : j < i
  · rw [if_pos hlt, if_pos (hlt.trans hi), Function.update_of_ne hlt.ne]
  · by_cases heq : j = i
    · rw [if_neg hlt, if_pos heq, heq, if_pos hi, Function.update_self]
    · have hj : i + 1 + (j - i - 1) = j := by omega
      rw [if_neg hlt, if_neg heq, hj, Function.update_of_ne heq]

/-- **Inserting** at the index where the gap was opened. -/
theorem items_openGap (hi : i ≤ n) (f : ℕ → α) (x : α) :
    items (Function.update (openGap i n f) i x) (n + 1) =
      (items f n).take i ++ x :: (items f n).drop i := by
  apply List.ext_getElem?
  intro j
  rw [getElem?_take_cons_drop f hi, getElem?_items]
  by_cases hlt : j < i
  · rw [if_pos hlt, if_pos (by omega), Function.update_of_ne hlt.ne, openGap_apply,
      if_neg (by omega)]
  · by_cases heq : j = i
    · rw [if_neg hlt, if_pos heq, heq, if_pos (by omega), Function.update_self]
    · have hj : i + (j - i - 1) = j - 1 := by omega
      rw [if_neg hlt, if_neg heq, hj, Function.update_of_ne heq]
      by_cases hn : j < n + 1
      · rw [if_pos hn, if_pos (by omega), openGap_apply, if_pos (by omega)]
      · rw [if_neg hn, if_neg (by omega)]

/-- **Removing** the element at `i`, by closing the gap behind it. -/
theorem items_closeGap (hi : i < n) (f : ℕ → α) :
    items (closeGap (n - (i + 1)) (i + 1) f) (n - 1) =
      (items f n).take i ++ (items f n).drop (i + 1) := by
  have hlen : ((items f n).take i).length = i := by
    rw [List.length_take, length_items, min_eq_left hi.le]
  apply List.ext_getElem?
  intro j
  rw [getElem?_items, closeGap_apply _ _ (Nat.succ_pos i)]
  by_cases hlt : j < i
  · rw [List.getElem?_append_left (by rwa [hlen]), List.getElem?_take_of_lt hlt, getElem?_items,
      if_pos (by omega), if_neg (by omega), if_pos (hlt.trans hi)]
  · have hj : i + 1 + (j - i) = j + 1 := by omega
    rw [List.getElem?_append_right (by rw [hlen]; omega), hlen, List.getElem?_drop, getElem?_items,
      hj]
    by_cases hn : j + 1 < n
    · rw [if_pos (by omega), if_pos (by omega), if_pos hn]
    · rw [if_neg (by omega), if_neg hn]

end SortedArray
