import Memkit.Foundations.CircularWindow
import Memkit.Sequences.RingBuffer

/-! # The indices of the ring buffer

What the operations do to `tail_`, `head_` and `count_`, whatever the elements are.

* **`RingIndices.slots`** — the slots of the elements, in logical order.
* **`RingIndices.Inv`** — `head_` is `(tail_ + count_) % capacity_` and `count_` is at most
  `capacity_`, which is less than half of the words, so that no sum of two indices wraps.
* **`RingBuffer.Moved`** — what growth does to the elements and their objects. -/

namespace Memkit

variable {w : ℕ} {V : Type*}

namespace RingIndices

/-- The slots of the elements, in logical order. -/
def slots (s : RingIndices w) : List (ℕ × ℕ) :=
  (CircularWindow.slots s.capacity.toNat s.tail.toNat s.count.toNat).map fun i => (s.block, i)

/-- The counters fit each other. -/
structure Inv (s : RingIndices w) : Prop where
  capacity_pos : 0 < s.capacity.toNat
  capacity_lt : s.capacity.toNat < 2 ^ (w - 1)
  tail_lt : s.tail.toNat < s.capacity.toNat
  count_le : s.count.toNat ≤ s.capacity.toNat
  head_eq : s.head.toNat = (s.tail.toNat + s.count.toNat) % s.capacity.toNat

variable {s : RingIndices w} {index delta : BitVec w}

@[simp] theorem length_slots (s : RingIndices w) : s.slots.length = s.count.toNat := by
  rw [slots, List.length_map, CircularWindow.length_slots]

namespace Inv

/-- Twice the capacity is a sum of words that does not wrap. -/
theorem two_mul_capacity_lt (h : s.Inv) : 2 * s.capacity.toNat < 2 ^ w := by
  have hpos := h.capacity_pos
  have hle := h.capacity_lt
  have hlt := s.capacity.isLt
  rcases Nat.eq_zero_or_pos w with rfl | hw
  · rw [pow_zero] at hlt
    omega
  · have hdouble : 2 ^ w = 2 * 2 ^ (w - 1) := by
      rw [← pow_succ', Nat.sub_add_cancel hw]
    omega

/-- The word 1. -/
theorem toNat_one (h : s.Inv) : (1 : BitVec w).toNat = 1 := by
  have hdouble := h.two_mul_capacity_lt
  have hpos := h.capacity_pos
  show 1 % 2 ^ w = 1
  exact Nat.mod_eq_of_lt (by omega)

/-- One more element can be counted. -/
theorem toNat_count_succ (h : s.Inv) : (s.count + 1).toNat = s.count.toNat + 1 := by
  have hdouble := h.two_mul_capacity_lt
  have hpos := h.capacity_pos
  have hle := h.count_le
  rw [BitVec.toNat_add, h.toNat_one, Nat.mod_eq_of_lt (by omega)]

/-- `head_` is an index. -/
theorem head_lt (h : s.Inv) : s.head.toNat < s.capacity.toNat := by
  rw [h.head_eq]
  exact Nat.mod_lt _ h.capacity_pos

/-- `advance` computes modulo the capacity. -/
theorem toNat_advance (h : s.Inv) (hindex : index.toNat < s.capacity.toNat)
    (hdelta : delta.toNat ≤ s.capacity.toNat) :
    (s.advance index delta).toNat = (index.toNat + delta.toNat) % s.capacity.toNat := by
  have hdouble := h.two_mul_capacity_lt
  rw [advance, BitVec.toNat_umod, BitVec.toNat_add,
    Nat.mod_eq_of_lt (show index.toNat + delta.toNat < 2 ^ w by omega)]

/-- So does the step back. -/
theorem toNat_retreat (h : s.Inv) (hindex : index.toNat < s.capacity.toNat) :
    (s.retreat index).toNat = (index.toNat + s.capacity.toNat - 1) % s.capacity.toNat := by
  have hdouble := h.two_mul_capacity_lt
  have hpos := h.capacity_pos
  have hsum : (index + s.capacity).toNat = index.toNat + s.capacity.toNat := by
    rw [BitVec.toNat_add, Nat.mod_eq_of_lt (by omega)]
  have hone := h.toNat_one
  have hle : 1 ≤ index + s.capacity := by
    rw [BitVec.le_def, hsum, hone]
    omega
  rw [retreat, BitVec.toNat_umod, BitVec.toNat_sub_of_le hle, hsum, hone]

/-- `logical_index` computes modulo the capacity. -/
theorem toNat_logicalIndex (h : s.Inv) (hindex : index.toNat ≤ s.capacity.toNat) :
    (s.logicalIndex index).toNat = (s.tail.toNat + index.toNat) % s.capacity.toNat :=
  h.toNat_advance h.tail_lt hindex

/-- A step forth undoes a step back. -/
theorem advance_retreat (h : s.Inv) (hindex : index.toNat < s.capacity.toNat) :
    s.advance (s.retreat index) 1 = index := by
  have hpos := h.capacity_pos
  have hone := h.toNat_one
  have hlt : (s.retreat index).toNat < s.capacity.toNat := by
    rw [h.toNat_retreat hindex]
    exact Nat.mod_lt _ hpos
  apply BitVec.eq_of_toNat_eq
  rw [h.toNat_advance hlt (by omega), h.toNat_retreat hindex, hone, Nat.mod_add_mod,
    Nat.sub_add_cancel (by omega), Nat.add_mod_right, Nat.mod_eq_of_lt hindex]

/-- The slots are different. -/
theorem nodup_slots (h : s.Inv) : s.slots.Nodup :=
  (CircularWindow.nodup_slots h.count_le).map fun _ _ heq => (Prod.mk.inj heq).2

/-- The slot of a logical index. -/
theorem slotAt_logicalIndex (h : s.Inv) {i : ℕ} (hlt : i < s.slots.length) :
    s.slotAt (s.logicalIndex (BitVec.ofNat w i)) = s.slots[i] := by
  have hi : i < s.count.toNat := by rwa [length_slots] at hlt
  have hle := h.count_le
  have hlt := s.count.isLt
  have hnat : (BitVec.ofNat w i).toNat = i := by
    rw [BitVec.toNat_ofNat, Nat.mod_eq_of_lt (by omega)]
  simp only [slots, List.getElem_map, CircularWindow.getElem_slots]
  rw [slotAt, h.toNat_logicalIndex (by omega), hnat]

/-! ## How the window moves -/

/-- The next slot at the end. -/
theorem slotAt_head (h : s.Inv) :
    s.slotAt s.head = (s.block, (s.tail.toNat + s.count.toNat) % s.capacity.toNat) := by
  rw [slotAt, h.head_eq]

/-- **Growing at the end.** -/
theorem push_back (h : s.Inv) (hroom : s.count.toNat < s.capacity.toNat) :
    let t := { s with head := s.advance s.head 1, count := s.count + 1 }
    t.Inv ∧ t.slots = s.slots ++ [s.slotAt s.head] ∧ s.slotAt s.head ∉ s.slots := by
  have hone := h.toNat_one
  have hcount := h.toNat_count_succ
  refine ⟨⟨h.capacity_pos, h.capacity_lt, h.tail_lt, ?_, ?_⟩, ?_, ?_⟩
  · show (s.count + 1).toNat ≤ s.capacity.toNat
    omega
  · show (s.advance s.head 1).toNat =
      (s.tail.toNat + (s.count + 1).toNat) % s.capacity.toNat
    rw [h.toNat_advance h.head_lt (by omega), hone, hcount, h.head_eq, Nat.mod_add_mod,
      Nat.add_assoc]
  · rw [h.slotAt_head]
    show (CircularWindow.slots s.capacity.toNat s.tail.toNat (s.count + 1).toNat).map _ = _
    rw [hcount, CircularWindow.slots_succ, List.map_append]
    rfl
  · rw [h.slotAt_head]
    intro hmem
    obtain ⟨i, hi, heq⟩ := List.mem_map.mp hmem
    obtain rfl := (Prod.mk.inj heq).2
    exact CircularWindow.end_notMem_slots hroom hi

/-- **Growing at the start.** -/
theorem push_front (h : s.Inv) (hroom : s.count.toNat < s.capacity.toNat) :
    let t := { s with tail := s.retreat s.tail, count := s.count + 1 }
    t.Inv ∧ t.slots = s.slotAt (s.retreat s.tail) :: s.slots ∧
      s.slotAt (s.retreat s.tail) ∉ s.slots := by
  have hpos := h.capacity_pos
  have htail := h.toNat_retreat h.tail_lt
  have hcount := h.toNat_count_succ
  have hlt : (s.retreat s.tail).toNat < s.capacity.toNat := by
    rw [htail]
    exact Nat.mod_lt _ hpos
  refine ⟨⟨hpos, h.capacity_lt, hlt, ?_, ?_⟩, ?_, ?_⟩
  · show (s.count + 1).toNat ≤ s.capacity.toNat
    omega
  · show s.head.toNat =
      ((s.retreat s.tail).toNat + (s.count + 1).toNat) % s.capacity.toNat
    have hsum : s.tail.toNat + s.capacity.toNat - 1 + (s.count.toNat + 1) =
        s.tail.toNat + s.count.toNat + s.capacity.toNat := by
      omega
    rw [htail, hcount, Nat.mod_add_mod, hsum, Nat.add_mod_right, h.head_eq]
  · show (CircularWindow.slots s.capacity.toNat (s.retreat s.tail).toNat
      (s.count + 1).toNat).map _ = _
    rw [hcount, htail, CircularWindow.slots_pred h.tail_lt, List.map_cons, slotAt, htail]
    rfl
  · rw [slotAt, htail]
    intro hmem
    obtain ⟨i, hi, heq⟩ := List.mem_map.mp hmem
    obtain rfl := (Prod.mk.inj heq).2
    exact CircularWindow.start_notMem_slots h.tail_lt hroom hi

/-- **Dropping** elements at the start. -/
theorem drop (h : s.Inv) {n : BitVec w} (hn : n ≤ s.count) :
    let t := { s with tail := s.advance s.tail n, count := s.count - n }
    t.Inv ∧ t.slots = s.slots.drop n.toNat := by
  have hle := h.count_le
  have hsub : (s.count - n).toNat = s.count.toNat - n.toNat := BitVec.toNat_sub_of_le hn
  rw [BitVec.le_def] at hn
  have htail := h.toNat_advance h.tail_lt (show n.toNat ≤ s.capacity.toNat by omega)
  have hlt : (s.advance s.tail n).toNat < s.capacity.toNat := by
    rw [htail]
    exact Nat.mod_lt _ h.capacity_pos
  refine ⟨⟨h.capacity_pos, h.capacity_lt, hlt, ?_, ?_⟩, ?_⟩
  · show (s.count - n).toNat ≤ s.capacity.toNat
    omega
  · show s.head.toNat = ((s.advance s.tail n).toNat + (s.count - n).toNat) % s.capacity.toNat
    rw [htail, hsub, Nat.mod_add_mod, Nat.add_assoc, Nat.add_sub_cancel' hn, h.head_eq]
  · show (CircularWindow.slots s.capacity.toNat (s.advance s.tail n).toNat
      (s.count - n).toNat).map _ = _
    have hdrop := CircularWindow.drop_slots s.capacity.toNat s.tail.toNat n.toNat
      (s.count.toNat - n.toNat)
    rw [Nat.add_sub_cancel' hn] at hdrop
    rw [htail, hsub, ← hdrop, List.map_drop]
    rfl

/-- A full buffer has elements. -/
theorem count_ne (h : s.Inv) (hfull : s.capacity ≤ s.count) : s.count ≠ 0 := by
  intro hzero
  have hpos := h.capacity_pos
  rw [BitVec.le_def, hzero, show (0 : BitVec w).toNat = 0 from BitVec.toNat_zero] at hfull
  omega

/-- There is room once an element is dropped. -/
theorem room_of_drop (h : s.Inv) (hcount : s.count ≠ 0) :
    (s.count - 1).toNat < s.capacity.toNat := by
  have hpred := WrapCounter.toNat_pred hcount
  have hle := h.count_le
  omega

/-- The first slot is at `tail_`. -/
theorem slots_eq_cons (h : s.Inv) (hcount : s.count ≠ 0) :
    s.slots = s.slotAt s.tail :: s.slots.drop 1 := by
  have hpred := WrapCounter.toNat_pred hcount
  have hsplit := CircularWindow.slots_cons h.tail_lt (s.count - 1).toNat
  rw [hpred] at hsplit
  rw [slots, hsplit]
  rfl

/-- **Shrinking at the end.** -/
theorem pop_back (h : s.Inv) (hcount : s.count ≠ 0) :
    let t := { s with head := s.retreat s.head, count := s.count - 1 }
    t.Inv ∧ s.slots = t.slots ++ [s.slotAt (s.retreat s.head)] := by
  have hpos := h.capacity_pos
  have hle := h.count_le
  have hpred := WrapCounter.toNat_pred hcount
  have hhead : (s.retreat s.head).toNat =
      (s.tail.toNat + (s.count - 1).toNat) % s.capacity.toNat := by
    have hsum : s.tail.toNat + s.count.toNat + (s.capacity.toNat - 1) =
        s.tail.toNat + (s.count - 1).toNat + s.capacity.toNat := by
      omega
    rw [h.toNat_retreat h.head_lt, h.head_eq, Nat.add_sub_assoc hpos, Nat.mod_add_mod, hsum,
      Nat.add_mod_right]
  refine ⟨⟨hpos, h.capacity_lt, h.tail_lt, ?_, hhead⟩, ?_⟩
  · show (s.count - 1).toNat ≤ s.capacity.toNat
    omega
  · have hsplit := CircularWindow.slots_succ s.capacity.toNat s.tail.toNat (s.count - 1).toNat
    rw [hpred] at hsplit
    rw [slotAt, hhead, slots, hsplit, List.map_append]
    rfl

end Inv

end RingIndices

namespace RingBuffer

/-- The elements, in logical order. -/
def items (s : RingBuffer w V) : List V := s.slots.map s.cells.contents

/-- The counters fit each other, and later blocks have later numbers. -/
structure Inv (s : RingBuffer w V) : Prop where
  indices : s.toRingIndices.Inv
  block_le : s.block ≤ s.allocs

/-- There was no fault, and the objects are those of the elements. -/
def Balanced (s : RingBuffer w V) : Prop := s.cells.ledger.Holds {a | a ∈ s.slots}

variable {cfg : RingConfig w V} {s t : RingBuffer w V}

@[simp] theorem length_items (s : RingBuffer w V) : s.items.length = s.count.toNat := by
  rw [items, List.length_map, RingIndices.length_slots]

theorem inv_init (cfg : RingConfig w V) (memory : ℕ × ℕ → V) : (init cfg memory).Inv where
  indices := by
    have hzero : (0 : BitVec w).toNat = 0 := BitVec.toNat_zero
    have hpos := cfg.initialCapacity_pos
    have hreal : cfg.initialCapacity.toNat < 2 ^ (w - 1) :=
      (Nat.le_mul_of_pos_right _ cfg.elemSize_pos).trans_lt cfg.storage_real
    refine ⟨hpos, hreal, ?_, ?_, ?_⟩
    · exact hzero.trans_lt hpos
    · exact hzero.trans_le (Nat.zero_le _)
    · show (0 : BitVec w).toNat = ((0 : BitVec w).toNat + (0 : BitVec w).toNat) % _
      rw [hzero, Nat.zero_mod]
  block_le := le_rfl

theorem balanced_init (cfg : RingConfig w V) (memory : ℕ × ℕ → V) : (init cfg memory).Balanced := by
  have hslots : (init cfg memory).slots = [] := by
    rw [← List.length_eq_zero_iff, RingIndices.length_slots]
    exact BitVec.toNat_zero
  have hempty : {a : ℕ × ℕ | a ∈ ([] : List (ℕ × ℕ))} = ∅ := by simp
  rw [Balanced, hslots, hempty]
  exact Ledger.holds_empty

/-! ## Growth -/

/-- The elements were moved to a new block. -/
structure Moved (s : RingBuffer w V) (newCapacity : BitVec w) (t : RingBuffer w V) : Prop where
  inv : t.Inv
  allocs : t.allocs = s.allocs + 1
  capacity : t.capacity = newCapacity
  count : t.count = s.count
  items : t.items = s.items
  balanced : s.Balanced → t.Balanced

/-- **`ensure_room`** of a full buffer that may grow is a growth by one element at least. -/
theorem ensureRoom_eq (h : s.Inv) (hfull : s.capacity ≤ s.count) (hgrowable : cfg.growable = true) :
    ensureRoom cfg s = relinearize cfg s (growCapacity s.capacity (s.count + 1)) := by
  have hsucc := h.indices.toNat_count_succ
  have henough := le_growCapacity h.indices.capacity_pos (s.count + 1)
  rw [BitVec.le_def] at hfull henough
  have hroom : ¬ s.count < s.capacity := by
    rw [BitVec.not_lt, BitVec.le_def]
    exact hfull
  have hlarger : ¬ growCapacity s.capacity (s.count + 1) ≤ s.capacity := by
    rw [BitVec.le_def]
    omega
  rw [ensureRoom, if_neg hroom, if_neg (by simp [hgrowable]), if_neg hlarger]

/-- **`relinearize`** moves the elements to a block that the allocator grants, or changes nothing. -/
theorem relinearize_cases (h : s.Inv) {newCapacity : BitVec w}
    (hmore : s.count.toNat < newCapacity.toNat)
    (hfit : newCapacity.toNat * cfg.elemSize.toNat < 2 ^ w) :
    (cfg.allocate s.allocs (newCapacity * cfg.elemSize) ≠ .ok ∧
      relinearize cfg s newCapacity =
        (cfg.allocate s.allocs (newCapacity * cfg.elemSize),
          { s with allocs := s.allocs + 1 })) ∨
    (cfg.allocate s.allocs (newCapacity * cfg.elemSize) = .ok ∧
      ∃ t, relinearize cfg s newCapacity = (.ok, t) ∧ s.Moved newCapacity t) := by
  have hless : ¬ newCapacity < s.count := by
    rw [BitVec.not_lt, BitVec.le_def]
    exact hmore.le
  unfold relinearize
  rw [if_neg hless]
  by_cases hst : cfg.allocate s.allocs (newCapacity * cfg.elemSize) = .ok
  swap
  · exact .inl ⟨hst, if_pos hst⟩
  refine .inr ⟨hst, _, if_neg (not_not.mpr hst), ?_⟩
  have hbytes : (newCapacity * cfg.elemSize).toNat = newCapacity.toNat * cfg.elemSize.toNat := by
    rw [BitVec.toNat_mul, Nat.mod_eq_of_lt hfit]
  have hreal := cfg.allocate_real s.allocs _ hst
  rw [hbytes] at hreal
  have hle : newCapacity.toNat ≤ newCapacity.toNat * cfg.elemSize.toNat :=
    Nat.le_mul_of_pos_right _ cfg.elemSize_pos
  have hzero : (0 : BitVec w).toNat = 0 := BitVec.toNat_zero
  -- the window of the new block starts at its first slot
  have hwindow : CircularWindow.slots newCapacity.toNat 0 s.count.toNat =
      List.range s.count.toNat := by
    apply List.ext_getElem
    · rw [CircularWindow.length_slots, List.length_range]
    · intro i hi hi'
      rw [List.length_range] at hi'
      rw [CircularWindow.getElem_slots, List.getElem_range, Nat.zero_add,
        Nat.mod_eq_of_lt (by omega)]
  have hsrc : (List.range s.count.toNat).map
      (fun i => s.slotAt (s.logicalIndex (BitVec.ofNat w i))) = s.slots := by
    apply List.ext_getElem
    · rw [List.length_map, List.length_range, RingIndices.length_slots]
    · intro i hi hi'
      rw [List.getElem_map, List.getElem_range]
      exact h.indices.slotAt_logicalIndex hi'
  have hdst : ((List.range s.count.toNat).map fun i => (s.allocs + 1, i)).Nodup :=
    List.nodup_range.map fun _ _ heq => (Prod.mk.inj heq).2
  have hnew : ∀ i a, a ∈ s.slots → (s.allocs + 1, i) ≠ a := by
    rintro i a hmem rfl
    obtain ⟨j, -, heq⟩ := List.mem_map.mp hmem
    have hblock := (Prod.mk.inj heq).1
    have hle := h.block_le
    omega
  refine ⟨⟨⟨?_, ?_, ?_, ?_, ?_⟩, le_rfl⟩, rfl, rfl, rfl, ?_, ?_⟩
  · exact (Nat.zero_le _).trans_lt hmore
  · exact hle.trans_lt hreal
  · exact hzero.trans_lt ((Nat.zero_le _).trans_lt hmore)
  · exact hmore.le
  · show s.count.toNat = ((0 : BitVec w).toNat + s.count.toNat) % newCapacity.toNat
    rw [hzero, Nat.zero_add, Nat.mod_eq_of_lt hmore]
  · show ((CircularWindow.slots newCapacity.toNat (0 : BitVec w).toNat s.count.toNat).map _).map _ =
      s.items
    rw [hzero, hwindow, items, ← hsrc]
    refine Cells.map_foldl_memcpy s.cells hdst fun i _ j hj => hnew i _ ?_
    rw [← hsrc]
    exact List.mem_map_of_mem hj
  · intro hbalanced
    show Ledger.Holds _ {a | a ∈ (CircularWindow.slots newCapacity.toNat (0 : BitVec w).toNat
      s.count.toNat).map _}
    rw [hzero, hwindow]
    have hmoved := Cells.holds_foldl_memcpy s.cells hbalanced hdst
      (hsrc ▸ h.indices.nodup_slots) ?_ ?_
    · rw [hsrc, Set.sdiff_self, Set.empty_union] at hmoved
      exact hmoved
    · intro i hi
      show _ ∈ s.slots
      rw [← hsrc]
      exact List.mem_map_of_mem hi
    · intro i _ hmem
      exact hnew i _ hmem rfl

end RingBuffer

end Memkit
