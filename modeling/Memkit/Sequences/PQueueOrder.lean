import Memkit.Foundations.BinaryHeap
import Memkit.Sequences.PQueue

/-! # The priority queue is a priority queue

With copies that do not fail, `pqueue_core` keeps its array a heap, and `push` and `pop` change the
multiset of its elements by one.

* **`Ordered`** — no element is before its parent.
* **`Swappable`** — `swap_elements` has room for an element.
* **`Correct`** — what `push`, `pop` and a series of pops do.
* **`correct_of_strictWeakOrder`** — it holds after any calls, if elements are swappable.
* **`not_correct_bigQueue`** — elements that the temporary of `swap_elements` does not hold. -/

namespace Memkit

namespace PQueue

variable {w : ℕ} {V : Type*}

/-- `b` is not before `a`. -/
def NotAfter (cfg : PQueueConfig w V) (a b : V) : Prop := cfg.lessThan b a = false

/-- The comparator is a strict weak order. -/
def StrictWeak (cfg : PQueueConfig w V) : Prop :=
  IsStrictWeakOrder V fun a b => cfg.lessThan a b = true

/-- Elements can be swapped: the policy is typed, or they fit the temporary. -/
def Swappable (cfg : PQueueConfig w V) : Prop := cfg.typed = true ∨ cfg.elemSize ≤ 256

/-- The elements, in the order of the array. -/
def items (s : PQueue V) : List V := BinaryHeap.items s.cells.contents s.size

/-- No element is before its parent. -/
def Ordered (cfg : PQueueConfig w V) (s : PQueue V) : Prop :=
  BinaryHeap.IsHeap (NotAfter cfg) s.cells.contents s.size

variable {cfg : PQueueConfig w V} {s : PQueue V}

/-! ## The order -/

section Order

variable {a b c : V}

/-- What is before is not after. -/
theorem StrictWeak.notAfter (h : StrictWeak cfg) (hab : cfg.lessThan a b = true) :
    NotAfter cfg a b := by
  rw [NotAfter, ← Bool.not_eq_true]
  intro hba
  exact h.irrefl a (h.trans a b a hab hba)

theorem StrictWeak.refl (h : StrictWeak cfg) (a : V) : NotAfter cfg a a := by
  rw [NotAfter, ← Bool.not_eq_true]
  exact h.irrefl a

/-- **Not being after** is transitive. -/
theorem StrictWeak.notAfter_trans (h : StrictWeak cfg) (a b c : V) (hab : NotAfter cfg a b)
    (hbc : NotAfter cfg b c) : NotAfter cfg a c := by
  unfold NotAfter at *
  rw [← Bool.not_eq_true] at *
  intro hca
  by_cases hlt : cfg.lessThan a b = true
  · exact hbc (h.trans c a b hca hlt)
  by_cases hlt' : cfg.lessThan b c = true
  · exact hab (h.trans b c a hlt' hca)
  -- the three are equivalent
  · exact (h.incomp_trans a b c ⟨hlt, hab⟩ ⟨hlt', hbc⟩).2 hca

end Order

/-! ## Swaps -/

/-- **`swap_elements`** exchanges two elements. -/
theorem swapElements_eq (hpolicy : cfg.policy.NonFailing) (hswap : Swappable cfg) (s : PQueue V)
    (left right : ℕ) :
    ∃ cells, swapElements cfg s left right = (.ok, { s with cells := cells }) ∧
      cells.contents = s.cells.contents ∘ Equiv.swap left right := by
  unfold swapElements
  by_cases htyped : cfg.typed = true
  · rw [if_pos htyped]
    refine ⟨_, rfl, ?_⟩
    rw [Equiv.swap_comm, Equiv.comp_swap_eq_update]
    rfl
  · have hsize : ¬ 256 < cfg.elemSize := by
      have hle := hswap.resolve_left htyped
      omega
    rw [if_neg htyped, if_neg hsize]
    simp only [Cells.copyOut_of_nonFailing hpolicy, Cells.copyConstruct_of_nonFailing hpolicy,
      ne_eq, not_true_eq_false, if_false]
    refine ⟨_, rfl, ?_⟩
    rw [Equiv.swap_comm, Equiv.comp_swap_eq_update]

/-- The array of the elements was permuted into a heap. -/
def Sifted (cfg : PQueueConfig w V) (s : PQueue V) (r : Status × PQueue V) : Prop :=
  ∃ cells, r = (.ok, { s with cells := cells }) ∧
    BinaryHeap.IsHeap (NotAfter cfg) cells.contents s.size ∧
    (BinaryHeap.items cells.contents s.size).Perm s.items

/-- Sifting on after a swap. -/
theorem Sifted.of_swap {cells : Cells ℕ V} {i j : ℕ} {r : Status × PQueue V}
    (hcells : cells.contents = s.cells.contents ∘ Equiv.swap i j) (hi : i < s.size)
    (hj : j < s.size) (h : Sifted cfg { s with cells := cells } r) : Sifted cfg s r := by
  obtain ⟨cells', hr, hheap, hperm⟩ := h
  refine ⟨cells', hr, hheap, hperm.trans ?_⟩
  show (BinaryHeap.items cells.contents s.size).Perm _
  rw [hcells]
  exact BinaryHeap.items_swap _ hi hj

/-- **`sift_up`** repairs the order above a node. -/
theorem siftUpLoop_spec (hpolicy : cfg.policy.NonFailing) (hswap : Swappable cfg)
    (horder : StrictWeak cfg) (rounds : ℕ) (s : PQueue V) (index : ℕ) (hindex : index < s.size)
    (hrounds : index ≤ rounds)
    (h : BinaryHeap.HoleUp (NotAfter cfg) s.cells.contents s.size index) :
    Sifted cfg s (siftUpLoop cfg rounds s index) := by
  induction rounds generalizing s index with
  | zero =>
    obtain rfl : index = 0 := by omega
    exact ⟨s.cells, rfl, h.finish fun hpos => absurd hpos (Nat.lt_irrefl 0), List.Perm.refl _⟩
  | succ rounds ih =>
    rw [siftUpLoop]
    by_cases hzero : index = 0
    · rw [if_pos hzero]
      exact ⟨s.cells, rfl, h.finish (by omega), List.Perm.refl _⟩
    have hpos := Nat.pos_of_ne_zero hzero
    have hparent := BinaryHeap.parent_lt hpos
    rw [if_neg hzero]
    by_cases hless :
        cfg.lessThan (s.cells.contents index) (s.cells.contents ((index - 1) / 2)) = false
    · rw [if_pos hless]
      exact ⟨s.cells, rfl, h.finish fun _ => hless, List.Perm.refl _⟩
    -- the node goes up to its parent
    rw [if_neg hless]
    have hle := horder.notAfter (Bool.eq_true_of_not_eq_false hless)
    obtain ⟨cells, heq, hcells⟩ :=
      swapElements_eq hpolicy hswap s index (BinaryHeap.parent index)
    have hhole := h.swap horder.notAfter_trans hpos hindex hle
    rw [← hcells] at hhole
    have hrest := ih { s with cells := cells } (BinaryHeap.parent index)
      (hparent.trans hindex) (by omega) hhole
    have hparentEq : (index - 1) / 2 = BinaryHeap.parent index := rfl
    simp only [hparentEq, heq, ne_eq, not_true_eq_false, if_false]
    exact Sifted.of_swap hcells hindex (hparent.trans hindex) hrest

/-! ## Sifting down -/

/-- What `sift_down` finds: no child is before the node, or the child that comes first. -/
theorem smallest_spec (horder : StrictWeak cfg) (hsize : s.size < 2 ^ (w - 1)) {index : ℕ}
    (hindex : index < s.size) :
    let f := s.cells.contents
    (smallest cfg s index = index ∧
      ∀ i, 0 < i → i < s.size → BinaryHeap.parent i = index → NotAfter cfg (f index) (f i)) ∨
    (0 < smallest cfg s index ∧ smallest cfg s index < s.size ∧ index < smallest cfg s index ∧
      BinaryHeap.parent (smallest cfg s index) = index ∧
      NotAfter cfg (f (smallest cfg s index)) (f index) ∧
      ∀ i, 0 < i → i < s.size → BinaryHeap.parent i = index → i ≠ smallest cfg s index →
        NotAfter cfg (f (smallest cfg s index)) (f i)) := by
  intro f
  -- below half the words the indices of the children do not wrap
  have hdouble : 2 * 2 ^ (w - 1) ≤ 2 ^ w ∨ w = 0 := by
    rcases Nat.eq_zero_or_pos w with rfl | hw
    · exact .inr rfl
    · left
      rw [← pow_succ', Nat.sub_add_cancel hw]
  have hbound : index * 2 + 2 < 2 ^ w := by
    rcases hdouble with hdouble | rfl
    · omega
    · rw [Nat.zero_sub, pow_zero] at hsize
      omega
  have hleft : (index * 2 + 1) % 2 ^ w = index * 2 + 1 := Nat.mod_eq_of_lt (by omega)
  have hright : (index * 2 + 1 + 1) % 2 ^ w = index * 2 + 2 := Nat.mod_eq_of_lt hbound
  have hchild : ∀ i, 0 < i → BinaryHeap.parent i = index → i = index * 2 + 1 ∨ i = index * 2 + 2 :=
    fun i hpos => (BinaryHeap.parent_eq_iff hpos).mp
  have hparentL : BinaryHeap.parent (index * 2 + 1) = index :=
    (BinaryHeap.parent_eq_iff (by omega)).mpr (.inl rfl)
  have hparentR : BinaryHeap.parent (index * 2 + 2) = index :=
    (BinaryHeap.parent_eq_iff (by omega)).mpr (.inr rfl)
  -- the left child is compared with the node, the right one with the winner
  by_cases hL : index * 2 + 1 < s.size ∧ cfg.lessThan (f (index * 2 + 1)) (f index) = true
  · have hleL := horder.notAfter hL.2
    by_cases hR : index * 2 + 2 < s.size ∧
        cfg.lessThan (f (index * 2 + 2)) (f (index * 2 + 1)) = true
    · have heq : smallest cfg s index = index * 2 + 2 := by
        simp only [smallest, hleft, hright]
        rw [if_pos hL, if_pos hR]
      have hleR := horder.notAfter hR.2
      rw [heq]
      -- the right child is before the left, which is before the node
      refine .inr ⟨by omega, hR.1, by omega, hparentR, horder.notAfter_trans _ _ _ hleR hleL, ?_⟩
      intro i hpos _ hparent hne
      obtain rfl := (hchild i hpos hparent).resolve_right hne
      exact hleR
    · have heq : smallest cfg s index = index * 2 + 1 := by
        simp only [smallest, hleft, hright]
        rw [if_pos hL, if_neg hR]
      rw [heq]
      refine .inr ⟨by omega, hL.1, by omega, hparentL, hleL, ?_⟩
      intro i hpos hi hparent hne
      obtain rfl := (hchild i hpos hparent).resolve_left hne
      exact Bool.eq_false_of_not_eq_true fun hless => hR ⟨hi, hless⟩
  · by_cases hR : index * 2 + 2 < s.size ∧ cfg.lessThan (f (index * 2 + 2)) (f index) = true
    · have heq : smallest cfg s index = index * 2 + 2 := by
        simp only [smallest, hleft, hright]
        rw [if_neg hL, if_pos hR]
      have hleR := horder.notAfter hR.2
      rw [heq]
      refine .inr ⟨by omega, hR.1, by omega, hparentR, hleR, ?_⟩
      intro i hpos hi hparent hne
      obtain rfl := (hchild i hpos hparent).resolve_right hne
      refine horder.notAfter_trans _ _ _ hleR ?_
      exact Bool.eq_false_of_not_eq_true fun hless => hL ⟨hi, hless⟩
    · have heq : smallest cfg s index = index := by
        simp only [smallest, hleft, hright]
        rw [if_neg hL, if_neg hR]
      refine .inl ⟨heq, fun i hpos hi hparent => ?_⟩
      rcases hchild i hpos hparent with rfl | rfl
      · -- no child is before the node
        exact Bool.eq_false_of_not_eq_true fun hless => hL ⟨hi, hless⟩
      · exact Bool.eq_false_of_not_eq_true fun hless => hR ⟨hi, hless⟩

/-- **`sift_down`** repairs the order below a node. -/
theorem siftDownLoop_spec (hpolicy : cfg.policy.NonFailing) (hswap : Swappable cfg)
    (horder : StrictWeak cfg) (rounds : ℕ) (s : PQueue V) (index : ℕ)
    (hsize : s.size < 2 ^ (w - 1)) (hindex : index < s.size) (hrounds : s.size ≤ index + rounds)
    (h : BinaryHeap.HoleDown (NotAfter cfg) s.cells.contents s.size index) :
    Sifted cfg s (siftDownLoop cfg rounds s index) := by
  induction rounds generalizing s index with
  | zero => exact absurd hindex (by omega)
  | succ rounds ih =>
    rw [siftDownLoop]
    rcases smallest_spec horder hsize hindex with
      ⟨hstop, hchildren⟩ | ⟨hpos, hlt, hbelow, hparent, hle, hfirst⟩
    · simp only [hstop, if_true]
      exact ⟨s.cells, rfl, h.finish hchildren, List.Perm.refl _⟩
    -- the node goes down to its first child
    have hne : smallest cfg s index ≠ index := hbelow.ne'
    obtain ⟨cells, heq, hcells⟩ := swapElements_eq hpolicy hswap s index (smallest cfg s index)
    have hhole := h.swap hpos hlt hparent hle hfirst
    rw [← hcells] at hhole
    have hrest := ih { s with cells := cells } (smallest cfg s index) hsize hlt
      (by show s.size ≤ _; omega) hhole
    simp only [if_neg hne, heq, ne_eq, not_true_eq_false, if_false]
    exact Sifted.of_swap hcells hindex hlt hrest

/-! ## Push and pop -/

/-- **`push`** adds the element, unless the queue is full. -/
theorem push_spec (hpolicy : cfg.policy.NonFailing) (hswap : Swappable cfg)
    (horder : StrictWeak cfg) (hfixed : cfg.growable = false) (h : Ordered cfg s) (value : V) :
    (cfg.capacity ≤ s.size ∧ push cfg s (some value) = (.full, s)) ∨
    (s.size < cfg.capacity ∧ ∃ t, push cfg s (some value) = (.ok, t) ∧ Ordered cfg t ∧
      t.size = s.size + 1 ∧ t.items.Perm (value :: s.items)) := by
  have hfull : full cfg s = decide (cfg.capacity ≤ s.size) := by
    rw [full, if_neg (by simp [hfixed])]
  rw [push, hfull]
  by_cases hle : cfg.capacity ≤ s.size
  · exact .inl ⟨hle, by rw [if_pos (decide_eq_true hle)]⟩
  rw [if_neg (by simpa using hle), Cells.copyConstruct_of_nonFailing hpolicy]
  refine .inr ⟨by omega, ?_⟩
  simp only [ne_eq, not_true_eq_false, if_false, Nat.add_sub_cancel]
  have hbefore : ∀ i < s.size, Function.update s.cells.contents s.size value i =
      s.cells.contents i := fun i hi => Function.update_of_ne hi.ne _ _
  have hheap : BinaryHeap.IsHeap (NotAfter cfg)
      (Function.update s.cells.contents s.size value) s.size := by
    intro i hpos hi
    rw [hbefore i hi, hbefore _ ((BinaryHeap.parent_lt hpos).trans hi)]
    exact h i hpos hi
  obtain ⟨cells, heq, hsifted, hperm⟩ := siftUpLoop_spec hpolicy hswap horder s.size
    { size := s.size + 1
      cells :=
        { contents := Function.update s.cells.contents s.size value
          copies := s.cells.copies + 1
          ledger := s.cells.ledger.construct s.size true } }
    s.size (Nat.lt_succ_self _) le_rfl hheap.holeUp
  refine ⟨_, heq, hsifted, rfl, hperm.trans ?_⟩
  show (BinaryHeap.items (Function.update s.cells.contents s.size value) (s.size + 1)).Perm _
  rw [BinaryHeap.items_succ, BinaryHeap.items_congr hbefore, Function.update_self]
  exact List.perm_append_singleton value _

/-- Taking the root out changes its slot at most. -/
theorem takeRoot_eq (hpolicy : cfg.policy.NonFailing) (s : PQueue V) (out : Option V) :
    ∃ cells, takeRoot cfg s out =
        ((.ok, out.map fun _ => s.cells.contents 0), { s with cells := cells }) ∧
      ∀ i, 0 < i → cells.contents i = s.cells.contents i := by
  cases out with
  | some out =>
    refine ⟨{ s.cells with copies := s.cells.copies + 1 }, ?_, fun _ _ => rfl⟩
    simp only [takeRoot, Cells.copyOut_of_nonFailing hpolicy, Option.map_some]
  | none =>
    unfold takeRoot
    by_cases hneeds : cfg.needsDestroy = true
    · rw [if_pos hneeds]
      exact ⟨_, rfl, fun i hi => Function.update_of_ne hi.ne' _ _⟩
    · rw [if_neg hneeds]
      exact ⟨_, rfl, fun _ _ => rfl⟩

/-- The end of `pop`: the last element moves to the root and is sifted down. -/
theorem refill_spec (hpolicy : cfg.policy.NonFailing) (hswap : Swappable cfg)
    (horder : StrictWeak cfg) {f : ℕ → V} {n : ℕ} (hsize : n + 1 < 2 ^ (w - 1)) (hn : 0 < n)
    (h : BinaryHeap.IsHeap (NotAfter cfg) f (n + 1)) (cells : Cells ℕ V)
    (hlast : cells.contents 0 = f n) (hrest : ∀ i, 0 < i → i < n → cells.contents i = f i) :
    ∃ t, siftDown cfg { size := n, cells := cells } 0 = (.ok, t) ∧ Ordered cfg t ∧ t.size = n ∧
      (BinaryHeap.items f (n + 1)).Perm (f 0 :: t.items) := by
  have hhole : BinaryHeap.HoleDown (NotAfter cfg) cells.contents n 0 :=
    (h.mono (Nat.le_succ n)).holeDown hrest
  obtain ⟨cells', heq, hsifted, hperm⟩ := siftDownLoop_spec hpolicy hswap horder (n - 0)
    { size := n, cells := cells } 0 (by show n < _; omega) hn (by show n ≤ _; omega) hhole
  refine ⟨_, heq, hsifted, rfl, ?_⟩
  refine List.Perm.trans ?_ (hperm.symm.cons (f 0))
  show (BinaryHeap.items f (n + 1)).Perm (f 0 :: BinaryHeap.items cells.contents n)
  obtain ⟨m, rfl⟩ := Nat.exists_eq_succ_of_ne_zero hn.ne'
  have htail : BinaryHeap.items (cells.contents ∘ Nat.succ) m =
      BinaryHeap.items (f ∘ Nat.succ) m :=
    BinaryHeap.items_congr fun i (hi : i < m) => hrest (i + 1) (Nat.succ_pos i) (by omega)
  rw [BinaryHeap.items_cons cells.contents, hlast, htail, BinaryHeap.items_cons,
    BinaryHeap.items_succ]
  exact (List.perm_append_singleton _ _).cons _

/-- **`pop`** takes out an element that comes first. -/
theorem pop_spec (hpolicy : cfg.policy.NonFailing) (hswap : Swappable cfg)
    (horder : StrictWeak cfg) (hsize : s.size < 2 ^ (w - 1)) (h : Ordered cfg s)
    (out : Option V) (hne : s.size ≠ 0) :
    ∃ x t, pop cfg s out = ((.ok, out.map fun _ => x), t) ∧ Ordered cfg t ∧
      t.size + 1 = s.size ∧ s.items.Perm (x :: t.items) ∧ ∀ y ∈ s.items, NotAfter cfg x y := by
  -- the root of a heap is not after any element
  have hfirst : ∀ y ∈ s.items, NotAfter cfg (s.cells.contents 0) y := by
    intro y hy
    obtain ⟨i, hi, rfl⟩ := List.mem_map.mp hy
    exact h.root_le horder.refl horder.notAfter_trans (List.mem_range.mp hi)
  obtain ⟨n, hn⟩ := Nat.exists_eq_succ_of_ne_zero hne
  obtain ⟨cells, htake, hkept⟩ := takeRoot_eq hpolicy s out
  rw [pop, if_neg hne, htake]
  have hpred : s.size - 1 = n := by omega
  simp only [ne_eq, not_true_eq_false, if_false, hpred]
  by_cases hzero : n = 0
  · -- the root was the only element
    subst hzero
    rw [if_pos rfl]
    refine ⟨s.cells.contents 0, _, rfl, ?_, hn.symm, ?_, hfirst⟩
    · exact fun i _ (hi : i < 0) => absurd hi (Nat.not_lt_zero i)
    · rw [items, hn]
      exact List.Perm.refl _
  -- the last element goes to the root
  rw [if_neg hzero, Cells.copyConstruct_of_nonFailing hpolicy]
  simp only [not_true_eq_false, if_false]
  have hpos := Nat.pos_of_ne_zero hzero
  rw [hn] at hsize
  unfold Ordered at h
  rw [hn] at h
  have hlast : cells.contents n = s.cells.contents n := hkept n hpos
  have hat0 : Function.update cells.contents 0 (cells.contents n) 0 = s.cells.contents n := by
    rw [Function.update_self, hlast]
  have hat : ∀ i, 0 < i → i < n →
      Function.update cells.contents 0 (cells.contents n) i = s.cells.contents i := by
    intro i hi _
    rw [Function.update_of_ne hi.ne', hkept i hi]
  -- its old place is destroyed or left: it is no longer in the queue either way
  by_cases hneeds : cfg.needsDestroy = true
  · rw [if_pos hneeds]
    obtain ⟨t, heq, hordered, htsize, hperm⟩ := refill_spec hpolicy hswap horder hsize hpos h
      (Cells.destroy cfg.policy
        { contents := Function.update cells.contents 0 (cells.contents n)
          copies := cells.copies + 1
          ledger := cells.ledger.construct 0 true } n)
      (by
        show Function.update _ n _ 0 = _
        rw [Function.update_of_ne hpos.ne]
        exact hat0)
      (by
        intro i hi hin
        show Function.update _ n _ i = _
        rw [Function.update_of_ne hin.ne]
        exact hat i hi hin)
    refine ⟨s.cells.contents 0, t, ?_, hordered, by omega, ?_, hfirst⟩
    · rw [heq]
    · rw [items, hn]
      exact hperm
  · rw [if_neg hneeds]
    obtain ⟨t, heq, hordered, htsize, hperm⟩ :=
      refill_spec hpolicy hswap horder hsize hpos h
        { contents := Function.update cells.contents 0 (cells.contents n)
          copies := cells.copies + 1
          ledger := cells.ledger.construct 0 true }
        hat0 hat
    refine ⟨s.cells.contents 0, t, ?_, hordered, by omega, ?_, hfirst⟩
    · rw [heq]
    · rw [items, hn]
      exact hperm

/-! ## Runs -/

/-- What holds between the calls: the array is a heap within its capacity. -/
structure Inv (cfg : PQueueConfig w V) (s : PQueue V) : Prop where
  ordered : Ordered cfg s
  size_le : s.size ≤ cfg.capacity

/-- The queue behaves as a priority queue in state `s`: its multiset is that of `items`. -/
structure Correct (cfg : PQueueConfig w V) (s : PQueue V) : Prop where
  ordered : ∀ i, 0 < i → i < s.size →
    cfg.lessThan (s.cells.contents i) (s.cells.contents ((i - 1) / 2)) = false
  push : ∀ value,
    (s.size = cfg.capacity ∧ push cfg s (some value) = (.full, s)) ∨
    (s.size < cfg.capacity ∧ (push cfg s (some value)).1 = .ok ∧
      (push cfg s (some value)).2.items.Perm (value :: s.items))
  pop : ∀ out,
    (s.items = [] ∧ pop cfg s out = ((.empty, out), s)) ∨
    ∃ x, (pop cfg s out).1 = (.ok, out.map fun _ => x) ∧
      s.items.Perm (x :: (pop cfg s out).2.items) ∧ ∀ y ∈ s.items, cfg.lessThan y x = false
  drain : ∀ out, ∃ xs : List V,
    Mealy.outputs (call cfg) s (List.replicate s.size (.pop (some out))) =
        xs.map (fun x => .value .ok (some x)) ∧
      xs.Perm s.items ∧ xs.Pairwise (fun a b => cfg.lessThan b a = false) ∧
      (Mealy.final (call cfg) s (List.replicate s.size (.pop (some out)))).size = 0

@[simp] theorem length_items (s : PQueue V) : s.items.length = s.size := by
  rw [items, BinaryHeap.items, List.length_map, List.length_range]

/-- The size stays below half of the word's range, so the indices of children do not wrap. -/
theorem Inv.size_lt (h : Inv cfg s) : s.size < 2 ^ (w - 1) := h.size_le.trans_lt cfg.capacity_lt

/-- **Popping until empty** delivers the elements in order. -/
theorem Inv.drain (hpolicy : cfg.policy.NonFailing) (hswap : Swappable cfg)
    (horder : StrictWeak cfg) (h : Inv cfg s) (out : V) :
    ∃ xs : List V,
      Mealy.outputs (call cfg) s (List.replicate s.size (.pop (some out))) =
          xs.map (fun x => .value .ok (some x)) ∧
        xs.Perm s.items ∧ xs.Pairwise (fun a b => cfg.lessThan b a = false) ∧
        (Mealy.final (call cfg) s (List.replicate s.size (.pop (some out)))).size = 0 := by
  generalize hn : s.size = n
  induction n generalizing s with
  | zero =>
    refine ⟨[], rfl, ?_, List.Pairwise.nil, hn⟩
    rw [List.length_eq_zero_iff.mp ((length_items s).trans hn)]
  | succ n ih =>
    obtain ⟨x, t, heq, hordered, htsize, hperm, hfirst⟩ :=
      pop_spec hpolicy hswap horder h.size_lt h.ordered (some out) (by omega)
    have hle := h.size_le
    obtain ⟨xs, houtputs, hxs, hsorted, hempty⟩ := ih ⟨hordered, by omega⟩ (by omega)
    have hcall : call cfg s (.pop (some out)) = (.value .ok (some x), t) := by
      show (Answer.ofOut (pop cfg s (some out)).1, (pop cfg s (some out)).2) = _
      rw [heq]
      rfl
    refine ⟨x :: xs, ?_, (hxs.cons x).trans hperm.symm, ?_, ?_⟩
    · rw [List.replicate_succ, Mealy.outputs_cons, hcall, houtputs, List.map_cons]
    · refine hsorted.cons fun y hy => ?_
      exact hfirst y (hperm.symm.subset (List.mem_cons_of_mem x (hxs.subset hy)))
    · rw [List.replicate_succ, Mealy.final_cons, hcall]
      exact hempty

/-- The invariant is enough for the queue to behave. -/
theorem Inv.correct (hpolicy : cfg.policy.NonFailing) (hswap : Swappable cfg)
    (horder : StrictWeak cfg) (hfixed : cfg.growable = false) (h : Inv cfg s) :
    Correct cfg s where
  ordered := h.ordered
  push value := by
    rcases push_spec hpolicy hswap horder hfixed h.ordered value with
      ⟨hle, heq⟩ | ⟨hlt, t, heq, -, -, hperm⟩
    · exact .inl ⟨le_antisymm h.size_le hle, heq⟩
    · rw [heq]
      exact .inr ⟨hlt, rfl, hperm⟩
  pop out := by
    by_cases hempty : s.size = 0
    · refine .inl ⟨List.length_eq_zero_iff.mp ((length_items s).trans hempty), ?_⟩
      rw [PQueue.pop, if_pos hempty]
    · obtain ⟨x, t, heq, -, -, hperm, hfirst⟩ :=
        pop_spec hpolicy hswap horder h.size_lt h.ordered out hempty
      rw [heq]
      exact .inr ⟨x, rfl, hperm, hfirst⟩
  drain out := h.drain hpolicy hswap horder out

/-- **Every call** keeps the invariant. -/
theorem Inv.call (hpolicy : cfg.policy.NonFailing) (hswap : Swappable cfg)
    (horder : StrictWeak cfg) (hfixed : cfg.growable = false) (h : Inv cfg s) (c : Call V) :
    Inv cfg (PQueue.call cfg s c).2 := by
  cases c with
  | push value =>
    show Inv cfg (PQueue.push cfg s value).2
    cases value with
    | none => exact h
    | some value =>
      rcases push_spec hpolicy hswap horder hfixed h.ordered value with
        ⟨-, heq⟩ | ⟨hlt, t, heq, hordered, hsize, -⟩
      · rw [heq]
        exact h
      · rw [heq]
        exact ⟨hordered, by show t.size ≤ _; omega⟩
  | pop out =>
    show Inv cfg (PQueue.pop cfg s out).2
    by_cases hempty : s.size = 0
    · rw [PQueue.pop, if_pos hempty]
      exact h
    · obtain ⟨x, t, heq, hordered, hsize, -, -⟩ :=
        pop_spec hpolicy hswap horder h.size_lt h.ordered out hempty
      have hle := h.size_le
      rw [heq]
      exact ⟨hordered, by show t.size ≤ _; omega⟩
  | peek out => exact h
  | clear => exact ⟨fun i _ (hi : i < 0) => absurd hi (Nat.not_lt_zero i), Nat.zero_le _⟩

theorem inv_init (cfg : PQueueConfig w V) (memory : ℕ → V) : Inv cfg (init memory) :=
  ⟨fun i _ (hi : i < 0) => absurd hi (Nat.not_lt_zero i), Nat.zero_le _⟩

/-- **The queue is a priority queue** after any calls, when copies do not fail, the comparator is a
strict weak order, the queue cannot grow and its elements are swappable. -/
theorem correct_of_strictWeakOrder (cfg : PQueueConfig w V) (hpolicy : cfg.policy.NonFailing)
    (hswap : Swappable cfg) (horder : StrictWeak cfg) (hfixed : cfg.growable = false)
    (memory : ℕ → V) (calls : List (Call V)) :
    Correct cfg (Mealy.final (PQueue.call cfg) (init memory) calls) := by
  have hinv := (Mealy.everyCall_true (init memory) calls).final_invariant (Inv cfg)
    (fun s c h _ => h.call hpolicy hswap horder hfixed c) (inv_init cfg memory)
  exact hinv.correct hpolicy hswap horder hfixed

/-- Numbers compared by their tens, in three slots. -/
def tensQueue : PQueueConfig 16 ℕ where
  policy := .bytewise ℕ
  needsDestroy := false
  typed := true
  elemSize := 4
  lessThan a b := a / 10 < b / 10
  capacity := 3
  growable := false
  scratch := 0
  capacity_lt := by decide

/-- Three pushes and a fourth that finds the queue full. -/
def tensCalls : List (Call ℕ) :=
  [.push (some 31), .push (some 12), .push (some 15), .push (some 4)]

/-- The queue sorts such elements. -/
theorem correct_tensCalls :
    Mealy.outputs (call tensQueue) (init fun _ => 0)
        (tensCalls ++ List.replicate 3 (.pop (some 0))) =
        [.status .ok, .status .ok, .status .ok, .status .full,
          .value .ok (some 12), .value .ok (some 15), .value .ok (some 31)] ∧
      Correct tensQueue (Mealy.final (call tensQueue) (init fun _ => 0) tensCalls) :=
  ⟨by decide +kernel, correct_of_strictWeakOrder tensQueue (ElementPolicy.nonFailing_bytewise ℕ)
    (.inl rfl)
    { irrefl := fun a => by simp [tensQueue]
      trans := fun a b c => by
        simp only [tensQueue, decide_eq_true_eq]
        exact Nat.lt_trans
      incomp_trans := fun a b c => by
        simp only [tensQueue, decide_eq_true_eq]
        omega }
    rfl (fun _ => 0) tensCalls⟩

/-- **Where elements are not swappable**, a queue with room for two is no priority queue: a push of
what comes before the only element is neither ok nor refused as full. -/
theorem not_correct_of_not_swappable (hpolicy : cfg.policy.NonFailing) (hlarge : ¬ Swappable cfg)
    (hfixed : cfg.growable = false) (hroom : 1 < cfg.capacity) {a b : V}
    (hless : cfg.lessThan a b = true) (memory : ℕ → V) :
    ¬ Correct cfg (Mealy.final (PQueue.call cfg) (init memory) [.push (some b)]) := by
  obtain ⟨htyped, hsize⟩ := not_or.mp hlarge
  have hempty : ¬ cfg.capacity ≤ 0 := by omega
  have hone : ¬ cfg.capacity ≤ 1 := by omega
  obtain ⟨cells, hfirst, hroot⟩ : ∃ cells, PQueue.push cfg (init memory) (some b) = (.ok, ⟨1, cells⟩) ∧
      cells.contents 0 = b := by
    refine ⟨((Cells.start memory).copyConstruct cfg.policy 0 b).2, ?_, ?_⟩
    · simp [PQueue.push, full, init, hfixed, hempty, Cells.copyConstruct_of_nonFailing hpolicy,
        siftUp, siftUpLoop]
    · simp [Cells.copyConstruct_of_nonFailing hpolicy]
  have hrun : Mealy.final (PQueue.call cfg) (init memory) [.push (some b)] = ⟨1, cells⟩ := by
    simp only [Mealy.final_cons, Mealy.final_nil, PQueue.call, hfirst]
  rw [hrun]
  intro h
  rcases h.push a with ⟨hfull, -⟩ | ⟨-, hok, -⟩
  · exact hroom.ne hfull
  · -- the new element is before its parent, and the swap is refused
    simp [PQueue.push, full, hfixed, hone, Cells.copyConstruct_of_nonFailing hpolicy, siftUp,
      siftUpLoop, swapElements, htyped, not_le.mp hsize, hless, hroot] at hok

/-- Numbers in 300 bytes, copied by `memcpy`. -/
def bigQueue : PQueueConfig 16 ℕ :=
  { tensQueue with typed := false, elemSize := 300, lessThan := fun a b => a < b }

/-- **An element of more than 256 bytes is not swapped**: the second push answers `invalid` though
there is room, and leaves its element below a parent that it is before. -/
theorem not_correct_bigQueue :
    let s := Mealy.final (call bigQueue) (init fun _ => 0) [.push (some 5)]
    let t := Mealy.final (call bigQueue) (init fun _ => 0) [.push (some 5), .push (some 3)]
    Mealy.outputs (call bigQueue) (init fun _ => 0) [.push (some 5), .push (some 3)] =
        [.status .ok, .status .invalid] ∧
      s.size < bigQueue.capacity ∧ t.items = [5, 3] ∧ ¬ Correct bigQueue s ∧
      ¬ Correct bigQueue t := by
  refine ⟨by decide +kernel, by decide +kernel, by decide +kernel, ?_, fun h => ?_⟩
  · exact not_correct_of_not_swappable (ElementPolicy.nonFailing_bytewise ℕ)
      (by simp [Swappable, bigQueue, tensQueue]) rfl (by decide) (a := 3) (b := 5) (by decide) _
  · exact absurd (h.ordered 1 (by decide +kernel) (by decide +kernel)) (by decide +kernel)

end PQueue

end Memkit
