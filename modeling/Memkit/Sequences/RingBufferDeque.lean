import Memkit.Sequences.DequeReference
import Memkit.Sequences.RingBufferShape

/-! # The ring buffer is a deque

With copies that do not fail, `ring_buffer_core` answers as the reference deque, for every capacity,
every policy for a full buffer and every allocator.

* **`SizesFit`** — the size in bytes that a call asks for does not wrap.
* **`Represents`** — a buffer stands for a deque.
* **`refines_deque`** — equal answers in every run, and the counters fit each other. -/

namespace Memkit

namespace RingBuffer

variable {w : ℕ} {V : Type*}

/-- The capacity that a call would grow the buffer to. -/
def requested (cfg : RingConfig w V) (s : RingBuffer w V) : Call w V → Option (BitVec w)
  | .pushBack (some _) _ | .pushFront (some _) =>
    if cfg.growable ∧ s.capacity ≤ s.count then some (growCapacity s.capacity (s.count + 1))
    else none
  | .reserve minCapacity =>
    if cfg.growable ∧ s.capacity < minCapacity then some (growCapacity s.capacity minCapacity)
    else none
  | _ => none

/-- The size in bytes that a call asks for does not wrap. -/
def SizesFit (cfg : RingConfig w V) (s : RingBuffer w V) (c : Call w V) : Prop :=
  ∀ newCapacity ∈ requested cfg s c, newCapacity.toNat * cfg.elemSize.toNat < 2 ^ w

instance (cfg : RingConfig w V) (s : RingBuffer w V) (c : Call w V) : Decidable (SizesFit cfg s c) :=
  match h : requested cfg s c with
  | none => isTrue (by simp [SizesFit, h])
  | some newCapacity =>
    decidable_of_iff (newCapacity.toNat * cfg.elemSize.toNat < 2 ^ w) (by simp [SizesFit, h])

/-- The buffer stands for the deque. -/
structure Represents (s : RingBuffer w V) (d : Deque V) : Prop where
  inv : s.Inv
  items : s.items = d.items
  room : s.capacity.toNat = d.room
  allocs : s.allocs = d.allocs

variable {cfg : RingConfig w V} {s : RingBuffer w V} {d : Deque V} {slot : ℕ × ℕ}

/-! ## Destroying elements -/

/-- Destroying does not look at the counters. -/
theorem destroySlot_eq (cfg : RingConfig w V) (s : RingBuffer w V) (slot : ℕ × ℕ) :
    destroySlot cfg s slot =
      { s with cells := s.cells.destroyIf cfg.needsDestroy cfg.policy slot } := by
  unfold destroySlot Cells.destroyIf
  split <;> rfl

/-- Destroying an element changes its slot at most. -/
theorem destroySlot_cases (cfg : RingConfig w V) (s : RingBuffer w V) (slot : ℕ × ℕ) :
    ∃ cells, destroySlot cfg s slot = { s with cells := cells } ∧
      (∀ xs : List (ℕ × ℕ), slot ∉ xs → xs.map cells.contents = xs.map s.cells.contents) ∧
      (cfg.needsDestroy = true → cells.ledger = s.cells.ledger.destroy slot) :=
  ⟨_, destroySlot_eq cfg s slot, fun _ hslot => Cells.map_destroyIf_of_notMem hslot,
    Cells.ledger_destroyIf⟩

/-- The loop that destroys the first elements changes their slots at most. -/
theorem destroyFirst_cases (cfg : RingConfig w V) (h : s.Inv) {n : ℕ} (hn : n ≤ s.count.toNat) :
    ∃ cells, destroyFirst cfg s n = { s with cells := cells } ∧
      (s.slots.drop n).map cells.contents = (s.slots.drop n).map s.cells.contents ∧
      (cfg.needsDestroy = true → s.Balanced → cells.ledger.Holds {a | a ∈ s.slots.drop n}) := by
  induction n with
  | zero => exact ⟨s.cells, rfl, rfl, fun _ hbalanced => hbalanced⟩
  | succ n ih =>
    obtain ⟨cells, hfirst, hitems, hledger⟩ := ih (by omega)
    have hlt : n < s.slots.length := by
      rw [RingIndices.length_slots]
      omega
    have hslot : s.slotAt (s.logicalIndex (BitVec.ofNat w n)) = s.slots[n] :=
      h.indices.slotAt_logicalIndex hlt
    have hdrop : s.slots.drop n = s.slots[n] :: s.slots.drop (n + 1) :=
      List.drop_eq_getElem_cons hlt
    have hnodup : (s.slots.drop n).Nodup := h.indices.nodup_slots.sublist (List.drop_sublist _ _)
    rw [hdrop] at hnodup hitems
    have hnot := (List.nodup_cons.mp hnodup).1
    obtain ⟨cells', hdestroy, hframe, hentry⟩ :=
      destroySlot_cases cfg { s with cells := cells } s.slots[n]
    refine ⟨cells', ?_, ?_, ?_⟩
    · unfold destroyFirst at hfirst ⊢
      rw [List.range_succ, List.foldl_append, hfirst, List.foldl_cons, List.foldl_nil]
      rw [← hdestroy, ← hslot]
    · rw [hframe _ hnot]
      exact (List.cons.inj hitems).2
    · intro hneeds hbalanced
      have hholds := hledger hneeds hbalanced
      rw [hentry hneeds]
      have hmem : s.slots[n] ∈ s.slots.drop n := by
        rw [hdrop]
        exact List.mem_cons_self
      convert hholds.destroy hmem using 1
      ext a
      rw [hdrop]
      simp only [Set.mem_ofPred_eq, Set.mem_sdiff, List.mem_cons, Set.mem_singleton_iff]
      constructor
      · intro ha
        refine ⟨.inr ha, ?_⟩
        rintro rfl
        exact hnot ha
      · rintro ⟨rfl | ha, hne⟩
        · exact absurd rfl hne
        · exact ha

/-! ## Making room -/

/-- The number of elements. -/
theorem Represents.length (h : Represents s d) : d.items.length = s.count.toNat := by
  rw [← h.items, length_items]

/-- **Growth** is growth of the deque. -/
theorem Represents.grow (h : Represents s d) {required : BitVec w}
    (hmore : s.count.toNat < required.toNat)
    (hfit : (growCapacity s.capacity required).toNat * cfg.elemSize.toNat < 2 ^ w) :
    (relinearize cfg s (growCapacity s.capacity required)).1 = (d.grow cfg required.toNat).1 ∧
      Represents (relinearize cfg s (growCapacity s.capacity required)).2
        (d.grow cfg required.toNat).2 ∧
      ((relinearize cfg s (growCapacity s.capacity required)).1 = .ok →
        required.toNat ≤ (relinearize cfg s (growCapacity s.capacity required)).2.capacity.toNat ∧
        (relinearize cfg s (growCapacity s.capacity required)).2.count = s.count) := by
  have hgrown := toNat_growCapacity h.inv.indices.capacity_pos required
  have henough := le_grownCapacity h.inv.indices.capacity_pos (2 ^ w) required.toNat
  generalize growCapacity s.capacity required = newCapacity at hfit hgrown ⊢
  have hbytes : BitVec.ofNat w (grownCapacity (2 ^ w) d.room required.toNat * cfg.elemSize.toNat) =
      newCapacity * cfg.elemSize := by
    apply BitVec.eq_of_toNat_eq
    rw [← h.room, ← hgrown, BitVec.toNat_ofNat, BitVec.toNat_mul]
  rw [← hgrown] at henough
  have hroom : s.count.toNat < newCapacity.toNat := by omega
  have hgrow : d.grow cfg required.toNat =
      if cfg.allocate s.allocs (newCapacity * cfg.elemSize) ≠ .ok then
        (cfg.allocate s.allocs (newCapacity * cfg.elemSize), { d with allocs := s.allocs + 1 })
      else (.ok, { d with room := newCapacity.toNat, allocs := s.allocs + 1 }) := by
    simp only [Deque.grow, hbytes, h.allocs]
    rw [hgrown, h.room]
  rw [hgrow]
  rcases relinearize_cases h.inv hroom hfit with
    ⟨hst, heq⟩ | ⟨hst, t, heq, hmoved⟩
  · rw [heq, if_pos hst]
    refine ⟨rfl, ⟨⟨h.inv.indices, Nat.le_succ_of_le h.inv.block_le⟩, h.items, h.room, rfl⟩, ?_⟩
    exact fun hok => absurd hok hst
  · rw [heq, if_neg (not_not.mpr hst)]
    refine ⟨rfl, ⟨hmoved.inv, hmoved.items.trans h.items, ?_, hmoved.allocs⟩, ?_⟩
    · exact congrArg BitVec.toNat hmoved.capacity
    · exact fun _ => ⟨hmoved.capacity ▸ henough, hmoved.count⟩

/-- `ensure_room` on a full buffer that may grow. -/
theorem Represents.ensureRoom (h : Represents s d) (hfull : s.capacity ≤ s.count)
    (hgrowable : cfg.growable = true)
    (hfit : (growCapacity s.capacity (s.count + 1)).toNat * cfg.elemSize.toNat < 2 ^ w) :
    (ensureRoom cfg s).1 = (d.grow cfg (d.items.length + 1)).1 ∧
      Represents (ensureRoom cfg s).2 (d.grow cfg (d.items.length + 1)).2 ∧
      ((ensureRoom cfg s).1 = .ok →
        (ensureRoom cfg s).2.count.toNat < (ensureRoom cfg s).2.capacity.toNat) := by
  have hsucc := h.inv.indices.toNat_count_succ
  have hmore : s.count.toNat < (s.count + 1).toNat := by omega
  obtain ⟨hst, hrep, hok⟩ := h.grow hmore hfit
  rw [hsucc, ← h.length] at hst hrep
  rw [ensureRoom_eq h.inv hfull hgrowable]
  refine ⟨hst, hrep, fun hstOk => ?_⟩
  obtain ⟨hle, hcount⟩ := hok hstOk
  rw [hcount]
  omega

/-- A buffer that is full. -/
theorem Represents.full_iff (h : Represents s d) :
    s.capacity ≤ s.count ↔ ¬ d.items.length < d.room := by
  rw [BitVec.le_def, h.length, ← h.room, not_lt]

/-- The first element is at `tail_`. -/
theorem Represents.items_cons (h : Represents s d) (hcount : s.count ≠ 0) :
    d.items = s.cells.contents (s.slotAt s.tail) :: (s.slots.drop 1).map s.cells.contents := by
  rw [← h.items, RingBuffer.items, h.inv.indices.slots_eq_cons hcount]
  rfl

/-- The last element is before `head_`. -/
theorem Represents.items_concat (h : Represents s d) (hcount : s.count ≠ 0) :
    let t := { s.toRingIndices with head := s.retreat s.head, count := s.count - 1 }
    d.items =
      t.slots.map s.cells.contents ++ [s.cells.contents (s.slotAt (s.retreat s.head))] := by
  rw [← h.items, RingBuffer.items, (h.inv.indices.pop_back hcount).2, List.map_append]
  rfl

/-- **Dropping the first element**, of which only the slot may change. -/
theorem Represents.dropFirst (h : Represents s d) (hcount : s.count ≠ 0) {cells : Cells (ℕ × ℕ) V}
    (hframe : ∀ xs : List (ℕ × ℕ), s.slotAt s.tail ∉ xs →
      xs.map cells.contents = xs.map s.cells.contents) :
    Represents { s with cells := cells, tail := s.advance s.tail 1, count := s.count - 1 }
      { d with items := d.items.tail } := by
  have hone := h.inv.indices.toNat_one
  have hpred := WrapCounter.toNat_pred hcount
  obtain ⟨hinv, hslots⟩ := h.inv.indices.drop (n := 1) (by rw [BitVec.le_def, hone]; omega)
  rw [hone] at hslots
  have hnodup := h.inv.indices.nodup_slots
  rw [h.inv.indices.slots_eq_cons hcount] at hnodup
  refine ⟨⟨hinv, h.inv.block_le⟩, ?_, h.room, h.allocs⟩
  show (RingIndices.slots _).map cells.contents = d.items.tail
  rw [hslots, hframe _ (List.nodup_cons.mp hnodup).1, h.items_cons hcount, List.tail_cons]

/-- **Dropping the last element**, of which only the slot may change. -/
theorem Represents.dropLast (h : Represents s d) (hcount : s.count ≠ 0) {cells : Cells (ℕ × ℕ) V}
    (hframe : ∀ xs : List (ℕ × ℕ), s.slotAt (s.retreat s.head) ∉ xs →
      xs.map cells.contents = xs.map s.cells.contents) :
    Represents { s with cells := cells, head := s.retreat s.head, count := s.count - 1 }
      { d with items := d.items.dropLast } := by
  obtain ⟨hinv, hslots⟩ := h.inv.indices.pop_back hcount
  have hnodup := h.inv.indices.nodup_slots
  rw [hslots, ← List.concat_eq_append, List.nodup_concat] at hnodup
  refine ⟨⟨hinv, h.inv.block_le⟩, ?_, h.room, h.allocs⟩
  rw [h.items_concat hcount, List.dropLast_concat]
  exact hframe _ hnodup.1

/-- **Room at the end.** -/
theorem Represents.makeRoomBack (h : Represents s d) (allowOverwrite : Bool)
    (hfit : cfg.growable = true → s.capacity ≤ s.count →
      (growCapacity s.capacity (s.count + 1)).toNat * cfg.elemSize.toNat < 2 ^ w) :
    (makeRoomBack cfg s allowOverwrite).1 =
        (d.makeRoom cfg (allowOverwrite || cfg.overwriteOnFull) d.items.tail).1 ∧
      Represents (makeRoomBack cfg s allowOverwrite).2
        (d.makeRoom cfg (allowOverwrite || cfg.overwriteOnFull) d.items.tail).2 ∧
      ((makeRoomBack cfg s allowOverwrite).1 = .ok →
        (makeRoomBack cfg s allowOverwrite).2.count.toNat <
          (makeRoomBack cfg s allowOverwrite).2.capacity.toNat) := by
  unfold RingBuffer.makeRoomBack Deque.makeRoom
  by_cases hfull : s.capacity ≤ s.count
  swap
  · rw [if_neg hfull, if_pos (not_not.mp (mt h.full_iff.mpr hfull))]
    refine ⟨rfl, h, fun _ => ?_⟩
    rwa [BitVec.le_def, not_le] at hfull
  rw [if_pos hfull, if_neg (h.full_iff.mp hfull)]
  by_cases hgrowable : cfg.growable = true
  · rw [if_pos hgrowable, if_pos hgrowable]
    exact h.ensureRoom hfull hgrowable (hfit hgrowable hfull)
  rw [if_neg hgrowable, if_neg hgrowable]
  by_cases hover : (allowOverwrite || cfg.overwriteOnFull) = true
  swap
  · rw [if_neg hover, if_neg hover]
    exact ⟨rfl, h, fun hst => by cases hst⟩
  rw [if_pos hover, if_pos hover]
  -- the first element is destroyed and its slot given up
  have hcount := h.inv.indices.count_ne hfull
  obtain ⟨cells, hdestroy, hframe, -⟩ := destroySlot_cases cfg s (s.slotAt s.tail)
  rw [hdestroy]
  exact ⟨rfl, h.dropFirst hcount hframe, fun _ => h.inv.indices.room_of_drop hcount⟩

/-- **Room at the start.** -/
theorem Represents.makeRoomFront (h : Represents s d)
    (hfit : cfg.growable = true → s.capacity ≤ s.count →
      (growCapacity s.capacity (s.count + 1)).toNat * cfg.elemSize.toNat < 2 ^ w) :
    (makeRoomFront cfg s).1 = (d.makeRoom cfg cfg.overwriteOnFull d.items.dropLast).1 ∧
      Represents (makeRoomFront cfg s).2 (d.makeRoom cfg cfg.overwriteOnFull d.items.dropLast).2 ∧
      ((makeRoomFront cfg s).1 = .ok →
        (makeRoomFront cfg s).2.count.toNat < (makeRoomFront cfg s).2.capacity.toNat) := by
  unfold RingBuffer.makeRoomFront Deque.makeRoom
  by_cases hfull : s.capacity ≤ s.count
  swap
  · rw [if_neg hfull, if_pos (not_not.mp (mt h.full_iff.mpr hfull))]
    refine ⟨rfl, h, fun _ => ?_⟩
    rwa [BitVec.le_def, not_le] at hfull
  rw [if_pos hfull, if_neg (h.full_iff.mp hfull)]
  by_cases hgrowable : cfg.growable = true
  · rw [if_pos hgrowable, if_pos hgrowable]
    exact h.ensureRoom hfull hgrowable (hfit hgrowable hfull)
  rw [if_neg hgrowable, if_neg hgrowable]
  by_cases hover : cfg.overwriteOnFull = true
  swap
  · rw [if_neg hover, if_neg hover]
    exact ⟨rfl, h, fun hst => by cases hst⟩
  rw [if_pos hover, if_pos hover]
  -- the last element is destroyed and its slot given up
  have hcount := h.inv.indices.count_ne hfull
  obtain ⟨cells, hdestroy, hframe, -⟩ := destroySlot_cases cfg s (s.slotAt (s.retreat s.head))
  rw [hdestroy]
  exact ⟨rfl, h.dropLast hcount hframe, fun _ => h.inv.indices.room_of_drop hcount⟩

/-! ## Adding an element -/

/-- An element added at the end. -/
theorem Represents.append (h : Represents s d) (hroom : s.count.toNat < s.capacity.toNat)
    (elem : V) (copies : ℕ) (ledger : Ledger (ℕ × ℕ)) :
    Represents
      { s with
        cells :=
          { contents := Function.update s.cells.contents (s.slotAt s.head) elem
            copies := copies
            ledger := ledger }
        head := s.advance s.head 1
        count := s.count + 1 }
      { d with items := d.items ++ [elem] } := by
  obtain ⟨hinv, hslots, hnot⟩ := h.inv.indices.push_back hroom
  refine ⟨⟨hinv, h.inv.block_le⟩, ?_, h.room, h.allocs⟩
  show List.map (Function.update s.cells.contents (s.slotAt s.head) elem) _ = d.items ++ [elem]
  rw [hslots, List.map_append, Cells.map_update_of_notMem hnot, List.map_singleton,
    Function.update_self]
  congr 1
  exact h.items

/-- An element added at the start. -/
theorem Represents.cons (h : Represents s d) (hroom : s.count.toNat < s.capacity.toNat)
    (elem : V) (copies : ℕ) (ledger : Ledger (ℕ × ℕ)) :
    Represents
      { s with
        cells :=
          { contents := Function.update s.cells.contents (s.slotAt (s.retreat s.tail)) elem
            copies := copies
            ledger := ledger }
        tail := s.retreat s.tail
        count := s.count + 1 }
      { d with items := elem :: d.items } := by
  obtain ⟨hinv, hslots, hnot⟩ := h.inv.indices.push_front hroom
  refine ⟨⟨hinv, h.inv.block_le⟩, ?_, h.room, h.allocs⟩
  show List.map (Function.update s.cells.contents (s.slotAt (s.retreat s.tail)) elem) _ =
    elem :: d.items
  rw [hslots, List.map_cons, Cells.map_update_of_notMem hnot, Function.update_self]
  congr 1
  exact h.items

/-! ## One call -/

/-- The size of a push fits. -/
theorem fits_of_requested {c : Call w V} (hfit : SizesFit cfg s c)
    (hrequested : requested cfg s c =
      if cfg.growable ∧ s.capacity ≤ s.count then some (growCapacity s.capacity (s.count + 1))
      else none) :
    cfg.growable = true → s.capacity ≤ s.count →
      (growCapacity s.capacity (s.count + 1)).toNat * cfg.elemSize.toNat < 2 ^ w := by
  intro hgrowable hfull
  refine hfit _ ?_
  rw [hrequested, if_pos ⟨hgrowable, hfull⟩]
  rfl

/-- The first test of `push_back` is one that the code after it makes again. -/
theorem pushBack_eq (hcapacity : s.capacity ≠ 0) (elem : V) (allowOverwrite : Bool) :
    pushBack cfg s (some elem) allowOverwrite =
      let (roomSt, s) := makeRoomBack cfg s allowOverwrite
      if roomSt ≠ .ok then (roomSt, s)
      else
        let (copySt, cells) := s.cells.copyConstruct cfg.policy (s.slotAt s.head) elem
        let s := { s with cells := cells }
        if copySt ≠ .ok then (copySt, s)
        else (.ok, { s with head := s.advance s.head 1, count := s.count + 1 }) := by
  rw [RingBuffer.pushBack, if_neg hcapacity]
  by_cases hfull : s.count = s.capacity ∧ cfg.growable = false ∧ allowOverwrite = false ∧
      cfg.overwriteOnFull = false
  · obtain ⟨hcount, hgrowable, hallow, hflag⟩ := hfull
    have hroom : makeRoomBack cfg s allowOverwrite = (.full, s) := by
      simp [makeRoomBack, hcount, hgrowable, hallow, hflag]
    rw [if_pos ⟨hcount, hgrowable, hallow, hflag⟩, hroom]
    rfl
  · rw [if_neg hfull]

/-- The capacity is not 0. -/
theorem Inv.capacity_ne (h : s.Inv) : s.capacity ≠ 0 := by
  intro h0
  have hpos := h.indices.capacity_pos
  rw [h0, show (0 : BitVec w).toNat = 0 from BitVec.toNat_zero] at hpos
  omega

/-- `push_back`. -/
theorem Represents.pushBack (h : Represents s d) (hpolicy : cfg.policy.NonFailing)
    (elem : Option V) (allowOverwrite : Bool)
    (hfit : SizesFit cfg s (.pushBack elem allowOverwrite)) :
    (pushBack cfg s elem allowOverwrite).1 = (d.pushBack cfg elem allowOverwrite).1 ∧
      Represents (pushBack cfg s elem allowOverwrite).2 (d.pushBack cfg elem allowOverwrite).2 := by
  cases elem with
  | none => exact ⟨rfl, h⟩
  | some elem =>
    obtain ⟨hst, hrep, hok⟩ := h.makeRoomBack allowOverwrite (fits_of_requested hfit rfl)
    rw [pushBack_eq h.inv.capacity_ne, Deque.pushBack]
    generalize RingBuffer.makeRoomBack cfg s allowOverwrite = room at hst hrep hok ⊢
    generalize d.makeRoom cfg (allowOverwrite || cfg.overwriteOnFull) d.items.tail = room'
      at hst hrep ⊢
    obtain ⟨st, t⟩ := room
    obtain ⟨st', e⟩ := room'
    obtain rfl : st = st' := hst
    by_cases hstOk : st = .ok
    · simp only [hstOk, Cells.copyConstruct_of_nonFailing hpolicy, ne_eq, not_true_eq_false,
        if_false, true_and]
      exact hrep.append (hok hstOk) elem _ _
    · simp only [hstOk, ne_eq, not_false_eq_true, if_true, true_and]
      exact hrep

/-- `push_front`. -/
theorem Represents.pushFront (h : Represents s d) (hpolicy : cfg.policy.NonFailing)
    (elem : Option V) (hfit : SizesFit cfg s (.pushFront elem)) :
    (pushFront cfg s elem).1 = (d.pushFront cfg elem).1 ∧
      Represents (pushFront cfg s elem).2 (d.pushFront cfg elem).2 := by
  cases elem with
  | none => exact ⟨rfl, h⟩
  | some elem =>
    obtain ⟨hst, hrep, hok⟩ := h.makeRoomFront (fits_of_requested hfit rfl)
    rw [RingBuffer.pushFront, Deque.pushFront]
    generalize RingBuffer.makeRoomFront cfg s = room at hst hrep hok ⊢
    generalize d.makeRoom cfg cfg.overwriteOnFull d.items.dropLast = room' at hst hrep ⊢
    obtain ⟨st, t⟩ := room
    obtain ⟨st', e⟩ := room'
    obtain rfl : st = st' := hst
    by_cases hstOk : st = .ok
    · simp only [hstOk, Cells.copyConstruct_of_nonFailing hpolicy, ne_eq, not_true_eq_false,
        if_false, true_and]
      exact hrep.cons (hok hstOk) elem _ _
    · simp only [hstOk, ne_eq, not_false_eq_true, if_true, true_and]
      exact hrep

/-- A buffer without elements. -/
theorem Represents.count_eq_zero (h : Represents s d) : s.count = 0 ↔ d.items = [] := by
  rw [← List.length_eq_zero_iff, h.length, ← BitVec.toNat_inj,
    show (0 : BitVec w).toNat = 0 from BitVec.toNat_zero]

/-- The element at an index. -/
theorem Represents.getElem (h : Represents s d) {index : BitVec w} (hindex : index < s.count) :
    d.items[index.toNat]? = some (s.cells.contents (s.slotAt (s.logicalIndex index))) := by
  rw [BitVec.lt_def, ← RingIndices.length_slots] at hindex
  have hslot := h.inv.indices.slotAt_logicalIndex hindex
  rw [BitVec.ofNat_toNat, BitVec.setWidth_eq] at hslot
  rw [hslot, ← h.items, RingBuffer.items, List.getElem?_map,
    List.getElem?_eq_getElem (by simpa using hindex)]
  rfl

/-- `extract_slot` reports the element and changes its slot at most. -/
theorem extractSlot_of_nonFailing (hpolicy : cfg.policy.NonFailing) (s : RingBuffer w V)
    (slot : ℕ × ℕ) (out : Option V) :
    ∃ cells, extractSlot cfg s slot out =
        ((.ok, out.map fun _ => s.cells.contents slot), { s with cells := cells }) ∧
      ∀ xs : List (ℕ × ℕ), slot ∉ xs → xs.map cells.contents = xs.map s.cells.contents := by
  cases out with
  | none =>
    obtain ⟨cells, hdestroy, hframe, -⟩ := destroySlot_cases cfg s slot
    exact ⟨cells, by rw [extractSlot, hdestroy]; rfl, hframe⟩
  | some out =>
    refine ⟨{ s.cells with copies := s.cells.copies + 1 }, ?_, fun _ _ => rfl⟩
    simp only [extractSlot, Cells.copyOut_of_nonFailing hpolicy, Option.map_some]

/-- `pop_front`. -/
theorem Represents.popFront (h : Represents s d) (hpolicy : cfg.policy.NonFailing)
    (out : Option V) :
    (popFront cfg s out).1 = Deque.report d.items.head? .empty out ∧
      Represents (popFront cfg s out).2 { d with items := d.items.tail } := by
  unfold RingBuffer.popFront
  by_cases hcount : s.count = 0
  · have hnil := h.count_eq_zero.mp hcount
    rw [if_pos hcount, hnil]
    refine ⟨rfl, ⟨h.inv, ?_, h.room, h.allocs⟩⟩
    rw [h.items, hnil]
    rfl
  rw [if_neg hcount]
  obtain ⟨cells, hextract, hframe⟩ := extractSlot_of_nonFailing hpolicy s (s.slotAt s.tail) out
  simp only [hextract, ne_eq, not_true_eq_false, if_false]
  refine ⟨?_, h.dropFirst hcount hframe⟩
  rw [h.items_cons hcount]
  rfl

/-- `pop_back`. -/
theorem Represents.popBack (h : Represents s d) (hpolicy : cfg.policy.NonFailing)
    (out : Option V) :
    (popBack cfg s out).1 = Deque.report d.items.getLast? .empty out ∧
      Represents (popBack cfg s out).2 { d with items := d.items.dropLast } := by
  unfold RingBuffer.popBack
  by_cases hcount : s.count = 0
  · have hnil := h.count_eq_zero.mp hcount
    rw [if_pos hcount, hnil]
    refine ⟨rfl, ⟨h.inv, ?_, h.room, h.allocs⟩⟩
    rw [h.items, hnil]
    rfl
  rw [if_neg hcount]
  obtain ⟨cells, hextract, hframe⟩ := extractSlot_of_nonFailing hpolicy
    { s with head := s.retreat s.head } (s.slotAt (s.retreat s.head)) out
  have hslot : RingIndices.slotAt { s.toRingIndices with head := s.retreat s.head }
      (s.retreat s.head) = s.slotAt (s.retreat s.head) := rfl
  simp only [hslot, hextract, ne_eq, not_true_eq_false, if_false]
  refine ⟨?_, h.dropLast hcount hframe⟩
  rw [h.items_concat hcount, List.getLast?_concat]
  rfl

/-- The peeks. -/
theorem Represents.peek (h : Represents s d) (out : Option V) :
    peekFront s out = Deque.peek d.items.head? .empty out ∧
      peekBack s out = Deque.peek d.items.getLast? .empty out ∧
      ∀ index, peekAt s index out = Deque.peek d.items[index.toNat]? .invalid out := by
  cases out with
  | none => exact ⟨rfl, rfl, fun _ => rfl⟩
  | some out =>
    by_cases hcount : s.count = 0
    · have hnil := h.count_eq_zero.mp hcount
      refine ⟨?_, ?_, fun index => ?_⟩
      · rw [peekFront, if_pos hcount, hnil]
        rfl
      · rw [peekBack, if_pos hcount, hnil]
        rfl
      · have hle : s.count ≤ index := by
          rw [hcount, BitVec.le_def]
          exact (BitVec.toNat_zero (w := w)).trans_le (Nat.zero_le _)
        rw [peekAt, if_pos hle, hnil, List.getElem?_nil]
        rfl
    · refine ⟨?_, ?_, fun index => ?_⟩
      · rw [peekFront, if_neg hcount, h.items_cons hcount]
        rfl
      · rw [peekBack, if_neg hcount, h.items_concat hcount, List.getLast?_concat]
        rfl
      · by_cases hle : s.count ≤ index
        · have hnone : d.items[index.toNat]? = none := by
            rw [List.getElem?_eq_none_iff, h.length, ← BitVec.le_def]
            exact hle
          rw [peekAt, if_pos hle, hnone]
          rfl
        · rw [peekAt, if_neg hle, h.getElem (BitVec.not_le.mp hle)]
          rfl

/-- `set_at`. -/
theorem Represents.setAt (h : Represents s d) (hpolicy : cfg.policy.NonFailing)
    (index : BitVec w) (elem : Option V) :
    (setAt cfg s index elem).1 = (d.setAt index.toNat elem).1 ∧
      Represents (setAt cfg s index elem).2 (d.setAt index.toNat elem).2 := by
  cases elem with
  | none => exact ⟨rfl, h⟩
  | some elem =>
    unfold RingBuffer.setAt Deque.setAt
    rw [h.length]
    by_cases hle : s.count ≤ index
    · simp only [if_pos hle, if_pos (BitVec.le_def.mp hle)]
      exact ⟨trivial, h⟩
    · have hlt : index.toNat < s.count.toNat := BitVec.lt_def.mp (BitVec.not_le.mp hle)
      have hslot := h.inv.indices.slotAt_logicalIndex ((RingIndices.length_slots _).symm ▸ hlt)
      rw [BitVec.ofNat_toNat, BitVec.setWidth_eq] at hslot
      simp only [if_neg hle, if_neg (Nat.not_le.mpr hlt),
        Cells.copyConstruct_of_nonFailing hpolicy, true_and]
      refine ⟨⟨h.inv.indices, h.inv.block_le⟩, ?_, h.room, h.allocs⟩
      show List.map (Function.update s.cells.contents _ elem) s.slots = _
      rw [hslot, Cells.map_update_getElem h.inv.indices.nodup_slots]
      congr 1
      exact h.items

/-- `reserve`. -/
theorem Represents.reserve (h : Represents s d) (minCapacity : BitVec w)
    (hfit : SizesFit cfg s (.reserve minCapacity)) :
    (reserve cfg s minCapacity).1 = (d.reserve cfg minCapacity.toNat).1 ∧
      Represents (reserve cfg s minCapacity).2 (d.reserve cfg minCapacity.toNat).2 := by
  unfold RingBuffer.reserve Deque.reserve
  rw [← h.room]
  by_cases hle : minCapacity ≤ s.capacity
  · rw [if_pos hle, if_pos (BitVec.le_def.mp hle)]
    exact ⟨rfl, h⟩
  rw [if_neg hle, if_neg (mt BitVec.le_def.mpr hle)]
  by_cases hgrowable : cfg.growable = false
  · rw [if_pos hgrowable, if_pos hgrowable]
    exact ⟨rfl, h⟩
  rw [if_neg hgrowable, if_neg hgrowable]
  have hlt := BitVec.not_le.mp hle
  have hfits : (growCapacity s.capacity minCapacity).toNat * cfg.elemSize.toNat < 2 ^ w := by
    refine hfit _ ?_
    rw [requested, if_pos ⟨Bool.eq_true_of_not_eq_false hgrowable, hlt⟩]
    rfl
  have hcount := h.inv.indices.count_le
  rw [BitVec.lt_def] at hlt
  obtain ⟨hst, hrep, -⟩ := h.grow (by omega) hfits
  exact ⟨hst, hrep⟩

/-- A buffer whose counters are 0. -/
theorem Represents.clear (h : Represents s d) : Represents (clear cfg s) { d with items := [] } := by
  have hzero : (0 : BitVec w).toNat = 0 := BitVec.toNat_zero
  unfold RingBuffer.clear
  by_cases hcount : s.count = 0
  · rw [if_pos hcount]
    exact ⟨h.inv, h.items.trans (h.count_eq_zero.mp hcount), h.room, h.allocs⟩
  rw [if_neg hcount]
  obtain ⟨cells, hfirst, -, -⟩ := destroyFirst_cases cfg h.inv le_rfl
  have hpos := h.inv.indices.capacity_pos
  rw [hfirst]
  refine ⟨⟨⟨hpos, h.inv.indices.capacity_lt, ?_, ?_, ?_⟩, h.inv.block_le⟩, ?_, h.room, h.allocs⟩
  · exact hzero.trans_lt hpos
  · exact hzero.trans_le (Nat.zero_le _)
  · show (0 : BitVec w).toNat = ((0 : BitVec w).toNat + (0 : BitVec w).toNat) % _
    rw [hzero, Nat.zero_mod]
  · rw [← List.length_eq_zero_iff, length_items]
    exact hzero

/-- `commit_read`. -/
theorem Represents.commitRead (h : Represents s d) (elemCount : BitVec w) :
    Represents (commitRead cfg s elemCount) { d with items := d.items.drop elemCount.toNat } := by
  have hzero : (0 : BitVec w).toNat = 0 := BitVec.toNat_zero
  unfold RingBuffer.commitRead
  by_cases hnone : elemCount = 0 ∨ s.count = 0
  · rw [if_pos hnone]
    refine ⟨h.inv, ?_, h.room, h.allocs⟩
    rcases hnone with h0 | hcount
    · rw [h0, hzero, List.drop_zero]
      exact h.items
    · rw [h.items, h.count_eq_zero.mp hcount, List.drop_nil]
  rw [if_neg hnone]
  generalize hn : (if s.count < elemCount then s.count else elemCount) = n
  have hle : n ≤ s.count := by
    rw [← hn]
    split
    · exact BitVec.le_refl _
    · next hlt => exact BitVec.not_lt.mp hlt
  have hdrop : d.items.drop elemCount.toNat = d.items.drop n.toNat := by
    rw [← hn]
    split
    · next hlt =>
      rw [BitVec.lt_def] at hlt
      rw [List.drop_eq_nil_of_le (by rw [h.length]; omega),
        List.drop_eq_nil_of_le (by rw [h.length])]
    · rfl
  obtain ⟨cells, hfirst, hitems, -⟩ := destroyFirst_cases cfg h.inv (BitVec.le_def.mp hle)
  obtain ⟨hinv, hslots⟩ := h.inv.indices.drop hle
  simp only [hfirst]
  refine ⟨⟨hinv, h.inv.block_le⟩, ?_, h.room, h.allocs⟩
  have hkept : (s.slots.drop n.toNat).map cells.contents = d.items.drop elemCount.toNat := by
    rw [hitems, List.map_drop, hdrop, ← h.items]
    rfl
  exact (congrArg (List.map cells.contents) hslots).trans hkept

/-- `foreach` meets the elements with their indices. -/
theorem Represents.elements (h : Represents s d) : s.elements = d.items.zipIdx := by
  apply List.ext_getElem
  · rw [RingBuffer.elements, List.length_map, List.length_range, List.length_zipIdx, h.length]
  · intro i hi hi'
    rw [RingBuffer.elements, List.length_map, List.length_range, ← RingIndices.length_slots] at hi
    simp only [RingBuffer.elements, List.getElem_map, List.getElem_range, List.getElem_zipIdx,
      Nat.zero_add, h.inv.indices.slotAt_logicalIndex hi, ← h.items, RingBuffer.items]

/-- **One call** gives the answer of the deque, and the buffer goes on standing for it. -/
theorem Represents.call (h : Represents s d) (hpolicy : cfg.policy.NonFailing) (c : Call w V)
    (hfit : SizesFit cfg s c) :
    (call cfg s c).1 = (d.call cfg c).1 ∧ Represents (call cfg s c).2 (d.call cfg c).2 := by
  cases c with
  | pushBack elem allowOverwrite =>
    obtain ⟨hst, hrep⟩ := h.pushBack hpolicy elem allowOverwrite hfit
    exact ⟨congrArg Answer.status hst, hrep⟩
  | pushFront elem =>
    obtain ⟨hst, hrep⟩ := h.pushFront hpolicy elem hfit
    exact ⟨congrArg Answer.status hst, hrep⟩
  | popFront out =>
    obtain ⟨hst, hrep⟩ := h.popFront hpolicy out
    exact ⟨congrArg Answer.ofOut hst, hrep⟩
  | popBack out =>
    obtain ⟨hst, hrep⟩ := h.popBack hpolicy out
    exact ⟨congrArg Answer.ofOut hst, hrep⟩
  | peekFront out => exact ⟨congrArg Answer.ofOut (h.peek out).1, h⟩
  | peekBack out => exact ⟨congrArg Answer.ofOut (h.peek out).2.1, h⟩
  | peekAt index out =>
    exact ⟨congrArg Answer.ofOut ((h.peek out).2.2 index), h⟩
  | setAt index elem =>
    obtain ⟨hst, hrep⟩ := h.setAt hpolicy index elem
    exact ⟨congrArg Answer.status hst, hrep⟩
  | reserve minCapacity =>
    obtain ⟨hst, hrep⟩ := h.reserve minCapacity hfit
    exact ⟨congrArg Answer.status hst, hrep⟩
  | clear => exact ⟨rfl, h.clear⟩
  | foreach visit =>
    refine ⟨?_, h⟩
    show Answer.ofVisits (visitLoop visit [] s.elements) = _
    rw [h.elements]
    rfl
  | commitRead elemCount => exact ⟨rfl, h.commitRead elemCount⟩

/-- The buffer after `init` stands for the empty deque. -/
theorem represents_init (cfg : RingConfig w V) (memory : ℕ × ℕ → V) :
    Represents (init cfg memory) ⟨[], cfg.initialCapacity.toNat, 0⟩ where
  inv := inv_init cfg memory
  items := by
    rw [← List.length_eq_zero_iff, length_items]
    exact BitVec.toNat_zero
  room := rfl
  allocs := rfl

/-- **The ring buffer is a deque**: over any calls whose sizes do not wrap it answers as the
reference deque; `head_` is `(tail_ + count_) % capacity_` and `count_` is at most `capacity_`. -/
theorem refines_deque (cfg : RingConfig w V) (hpolicy : cfg.policy.NonFailing)
    (memory : ℕ × ℕ → V) (calls : List (Call w V))
    (hfit : Mealy.EveryCall (RingBuffer.call cfg) (SizesFit cfg) (init cfg memory) calls) :
    Mealy.outputs (RingBuffer.call cfg) (init cfg memory) calls =
        Mealy.outputs (Deque.call cfg) ⟨[], cfg.initialCapacity.toNat, 0⟩ calls ∧
      let s := Mealy.final (RingBuffer.call cfg) (init cfg memory) calls
      s.head.toNat = (s.tail.toNat + s.count.toNat) % s.capacity.toNat ∧ s.count ≤ s.capacity := by
  obtain ⟨houtputs, hrep⟩ := Mealy.simulation Represents
    (fun s d c hrep hfit => Represents.call hrep hpolicy c hfit) hfit (represents_init cfg memory)
  exact ⟨houtputs, hrep.inv.indices.head_eq, hrep.inv.indices.count_le⟩

/-- A growable buffer of two slots, whose allocator grants the first request only. -/
def pairRing : RingConfig 16 ℕ where
  policy := .bytewise ℕ
  needsDestroy := false
  elemSize := 2
  growable := true
  overwriteOnFull := false
  allocate n bytes := if n = 0 ∧ bytes.toNat < 2 ^ 15 then .ok else .oom
  initialCapacity := 2
  elemSize_pos := Nat.two_pos
  initialCapacity_pos := Nat.two_pos
  storage_real := by decide
  allocate_real n bytes h := by
    by_cases hgrant : n = 0 ∧ bytes.toNat < 2 ^ 15
    · exact hgrant.2
    · rw [if_neg hgrant] at h
      cases h

/-- Calls that wrap, grow the wrapped buffer and then fail to grow it again. -/
def pairCalls : List (Call 16 ℕ) :=
  [.pushBack (some 1) false, .pushFront (some 0), .pushBack (some 2) false, .pushFront (some 9),
    .pushBack (some 3) false, .foreach fun _ => .ok, .popBack (some 7)]

/-- The buffer is a deque in such a run. -/
theorem refines_deque_pairCalls :
    Mealy.outputs (RingBuffer.call pairRing) (init pairRing fun _ => 0) pairCalls =
        [.status .ok, .status .ok, .status .ok, .status .ok, .status .oom,
          .visits .ok [(9, 0), (0, 1), (1, 2), (2, 3)], .value .ok (some 2)] ∧
      Mealy.outputs (RingBuffer.call pairRing) (init pairRing fun _ => 0) pairCalls =
        Mealy.outputs (Deque.call pairRing) ⟨[], pairRing.initialCapacity.toNat, 0⟩ pairCalls :=
  ⟨by decide +kernel, (refines_deque pairRing (ElementPolicy.nonFailing_bytewise ℕ) (fun _ => 0)
    pairCalls (by decide +kernel)).1⟩

end RingBuffer

end Memkit
