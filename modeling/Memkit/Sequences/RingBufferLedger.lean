import Memkit.Sequences.RingBufferDeque

/-! # The objects of the ring buffer

Every slot of the ring buffer is constructed only when it holds no object and destroyed only when it
holds one, as long as no call hands an object out by a copy or overwrites one in place.

* **`Clean`** — the calls that do not.
* **`Sound.call`** — they keep the objects those of the elements. -/

namespace Memkit

namespace RingBuffer

variable {w : ℕ} {V : Type*} {cfg : RingConfig w V} {s : RingBuffer w V}

/-- A pop does not hand its element out, `set_at` does not find its index, and the size in bytes
that a growth asks for does not wrap. -/
def Clean (cfg : RingConfig w V) (s : RingBuffer w V) : Call w V → Prop
  | .popFront out => s.count = 0 ∨ ¬ s.cells.HandedOut cfg.policy (s.slotAt s.tail) out
  | .popBack out => s.count = 0 ∨ ¬ s.cells.HandedOut cfg.policy (s.slotAt (s.retreat s.head)) out
  | .setAt index (some _) => s.count ≤ index
  | c => SizesFit cfg s c

instance (cfg : RingConfig w V) (s : RingBuffer w V) : ∀ c, Decidable (Clean cfg s c)
  | .popFront _ | .popBack _ => inferInstanceAs (Decidable (_ ∨ _))
  | .setAt index (some _) => inferInstanceAs (Decidable (s.count ≤ index))
  | .setAt _ none | .pushBack _ _ | .pushFront _ | .peekFront _ | .peekBack _ | .peekAt _ _
  | .reserve _ | .clear | .foreach _ | .commitRead _ => inferInstanceAs (Decidable (SizesFit cfg s _))

/-- The counters fit each other, and the objects are those of the elements. -/
structure Sound (s : RingBuffer w V) : Prop where
  inv : s.Inv
  balanced : s.Balanced

/-! ## Making room -/

/-- **Growth** moves the objects with the elements. -/
theorem Sound.relinearize (h : Sound s) {newCapacity : BitVec w}
    (hmore : s.count.toNat < newCapacity.toNat)
    (hfit : newCapacity.toNat * cfg.elemSize.toNat < 2 ^ w) :
    Sound (relinearize cfg s newCapacity).2 ∧
      ((RingBuffer.relinearize cfg s newCapacity).1 = .ok →
        (RingBuffer.relinearize cfg s newCapacity).2.count.toNat <
          (RingBuffer.relinearize cfg s newCapacity).2.capacity.toNat) := by
  rcases relinearize_cases h.inv hmore hfit with ⟨hst, heq⟩ | ⟨-, t, heq, hmoved⟩
  · rw [heq]
    exact ⟨⟨⟨h.inv.indices, Nat.le_succ_of_le h.inv.block_le⟩, h.balanced⟩,
      fun hok => absurd hok hst⟩
  · rw [heq]
    refine ⟨⟨hmoved.inv, hmoved.balanced h.balanced⟩, fun _ => ?_⟩
    show t.count.toNat < t.capacity.toNat
    rw [hmoved.count, hmoved.capacity]
    exact hmore

/-- `ensure_room` on a full buffer that may grow. -/
theorem Sound.ensureRoom (h : Sound s) (hfull : s.capacity ≤ s.count)
    (hgrowable : cfg.growable = true)
    (hfit : (growCapacity s.capacity (s.count + 1)).toNat * cfg.elemSize.toNat < 2 ^ w) :
    Sound (ensureRoom cfg s).2 ∧
      ((RingBuffer.ensureRoom cfg s).1 = .ok →
        (RingBuffer.ensureRoom cfg s).2.count.toNat <
          (RingBuffer.ensureRoom cfg s).2.capacity.toNat) := by
  have hsucc := h.inv.indices.toNat_count_succ
  have henough := le_growCapacity h.inv.indices.capacity_pos (s.count + 1)
  rw [BitVec.le_def] at henough
  rw [ensureRoom_eq h.inv hfull hgrowable]
  exact h.relinearize (by omega) hfit

/-- **Dropping the first element**, which is destroyed. -/
theorem Sound.dropFirst (h : Sound s) (hneeds : cfg.needsDestroy = true) (hcount : s.count ≠ 0) :
    Sound { destroySlot cfg s (s.slotAt s.tail) with
      tail := s.advance s.tail 1, count := s.count - 1 } := by
  have hone := h.inv.indices.toNat_one
  have hpred := WrapCounter.toNat_pred hcount
  obtain ⟨hinv, hslots⟩ := h.inv.indices.drop (n := 1) (by rw [BitVec.le_def, hone]; omega)
  have hfirst := h.inv.indices.slots_eq_cons hcount
  have hnodup := h.inv.indices.nodup_slots
  have hbalanced := h.balanced
  unfold Balanced at hbalanced
  rw [hone] at hslots
  rw [hfirst] at hnodup hbalanced
  rw [destroySlot, if_pos hneeds]
  refine ⟨⟨hinv, h.inv.block_le⟩, ?_⟩
  show (s.cells.ledger.destroy (s.slotAt s.tail)).Holds {a | a ∈ RingIndices.slots _}
  rw [hslots]
  exact hbalanced.destroy_head (List.nodup_cons.mp hnodup).1

/-- **Dropping the last element**, which is destroyed. -/
theorem Sound.dropLast (h : Sound s) (hneeds : cfg.needsDestroy = true) (hcount : s.count ≠ 0) :
    Sound { destroySlot cfg s (s.slotAt (s.retreat s.head)) with
      head := s.retreat s.head, count := s.count - 1 } := by
  obtain ⟨hinv, hslots⟩ := h.inv.indices.pop_back hcount
  have hnodup := h.inv.indices.nodup_slots
  have hbalanced := h.balanced
  unfold Balanced at hbalanced
  rw [hslots] at hnodup hbalanced
  rw [← List.concat_eq_append, List.nodup_concat] at hnodup
  rw [destroySlot, if_pos hneeds]
  exact ⟨⟨hinv, h.inv.block_le⟩, hbalanced.destroy_last hnodup.1⟩

/-- **Room at the end.** -/
theorem Sound.makeRoomBack (h : Sound s) (hneeds : cfg.needsDestroy = true) (allowOverwrite : Bool)
    (hfit : cfg.growable = true → s.capacity ≤ s.count →
      (growCapacity s.capacity (s.count + 1)).toNat * cfg.elemSize.toNat < 2 ^ w) :
    Sound (makeRoomBack cfg s allowOverwrite).2 ∧
      ((RingBuffer.makeRoomBack cfg s allowOverwrite).1 = .ok →
        (RingBuffer.makeRoomBack cfg s allowOverwrite).2.count.toNat <
          (RingBuffer.makeRoomBack cfg s allowOverwrite).2.capacity.toNat) := by
  unfold RingBuffer.makeRoomBack
  by_cases hfull : s.capacity ≤ s.count
  swap
  · rw [if_neg hfull]
    refine ⟨h, fun _ => ?_⟩
    rwa [BitVec.le_def, not_le] at hfull
  rw [if_pos hfull]
  by_cases hgrowable : cfg.growable = true
  · rw [if_pos hgrowable]
    exact h.ensureRoom hfull hgrowable (hfit hgrowable hfull)
  rw [if_neg hgrowable]
  by_cases hover : (allowOverwrite || cfg.overwriteOnFull) = true
  · rw [if_pos hover]
    have hcount := h.inv.indices.count_ne hfull
    have hdrop := h.dropFirst hneeds hcount
    rw [destroySlot, if_pos hneeds] at hdrop ⊢
    exact ⟨hdrop, fun _ => h.inv.indices.room_of_drop hcount⟩
  · rw [if_neg hover]
    exact ⟨h, fun hst => by cases hst⟩

/-- **Room at the start.** -/
theorem Sound.makeRoomFront (h : Sound s) (hneeds : cfg.needsDestroy = true)
    (hfit : cfg.growable = true → s.capacity ≤ s.count →
      (growCapacity s.capacity (s.count + 1)).toNat * cfg.elemSize.toNat < 2 ^ w) :
    Sound (makeRoomFront cfg s).2 ∧
      ((RingBuffer.makeRoomFront cfg s).1 = .ok →
        (RingBuffer.makeRoomFront cfg s).2.count.toNat <
          (RingBuffer.makeRoomFront cfg s).2.capacity.toNat) := by
  unfold RingBuffer.makeRoomFront
  by_cases hfull : s.capacity ≤ s.count
  swap
  · rw [if_neg hfull]
    refine ⟨h, fun _ => ?_⟩
    rwa [BitVec.le_def, not_le] at hfull
  rw [if_pos hfull]
  by_cases hgrowable : cfg.growable = true
  · rw [if_pos hgrowable]
    exact h.ensureRoom hfull hgrowable (hfit hgrowable hfull)
  rw [if_neg hgrowable]
  by_cases hover : cfg.overwriteOnFull = true
  · rw [if_pos hover]
    have hcount := h.inv.indices.count_ne hfull
    have hdrop := h.dropLast hneeds hcount
    rw [destroySlot, if_pos hneeds] at hdrop ⊢
    exact ⟨hdrop, fun _ => h.inv.indices.room_of_drop hcount⟩
  · rw [if_neg hover]
    exact ⟨h, fun hst => by cases hst⟩

/-! ## The calls -/

/-- **`push_back`** constructs in the slot behind the last element. -/
theorem Sound.pushBack (h : Sound s) (hneeds : cfg.needsDestroy = true) (elem : Option V)
    (allowOverwrite : Bool) (hfit : SizesFit cfg s (.pushBack elem allowOverwrite)) :
    Sound (pushBack cfg s elem allowOverwrite).2 := by
  cases elem with
  | none => exact h
  | some elem =>
    obtain ⟨hsound, hroom⟩ := h.makeRoomBack hneeds allowOverwrite (fits_of_requested hfit rfl)
    rw [pushBack_eq h.inv.capacity_ne]
    generalize RingBuffer.makeRoomBack cfg s allowOverwrite = room at hsound hroom ⊢
    obtain ⟨st, t⟩ := room
    by_cases hst : st ≠ .ok
    · simp only [if_pos hst]
      exact hsound
    simp only [if_neg hst]
    rw [not_not] at hst
    obtain ⟨hinv, hslots, hnot⟩ := hsound.inv.indices.push_back (hroom hst)
    have hcopied := Cells.copied cfg.policy t.cells (t.slotAt t.head) elem
    by_cases hok : (t.cells.copyConstruct cfg.policy (t.slotAt t.head) elem).1 ≠ .ok
    · rw [if_pos hok]
      exact ⟨⟨hsound.inv.indices, hsound.inv.block_le⟩,
        hcopied.failed hok _ hsound.balanced hnot⟩
    · rw [if_neg hok]
      refine ⟨⟨hinv, hsound.inv.block_le⟩, ?_⟩
      show Ledger.Holds _ {a | a ∈ RingIndices.slots _}
      rw [hslots, Ledger.setOf_mem_insert, List.append_nil]
      exact hcopied.constructed (not_not.mp hok) _ hsound.balanced hnot

/-- **`push_front`** constructs in the slot before the first element. -/
theorem Sound.pushFront (h : Sound s) (hneeds : cfg.needsDestroy = true) (elem : Option V)
    (hfit : SizesFit cfg s (.pushFront elem)) : Sound (pushFront cfg s elem).2 := by
  cases elem with
  | none => exact h
  | some elem =>
    obtain ⟨hsound, hroom⟩ := h.makeRoomFront hneeds (fits_of_requested hfit rfl)
    rw [RingBuffer.pushFront]
    generalize RingBuffer.makeRoomFront cfg s = room at hsound hroom ⊢
    obtain ⟨st, t⟩ := room
    by_cases hst : st ≠ .ok
    · simp only [if_pos hst]
      exact hsound
    simp only [if_neg hst]
    rw [not_not] at hst
    obtain ⟨hinv, hslots, hnot⟩ := hsound.inv.indices.push_front (hroom hst)
    have hcopied := Cells.copied cfg.policy t.cells (t.slotAt (t.retreat t.tail)) elem
    show Sound (if (t.cells.copyConstruct cfg.policy (t.slotAt (t.retreat t.tail)) elem).1 ≠ Status.ok
      then _ else _ : Status × RingBuffer w V).2
    by_cases hok :
        (t.cells.copyConstruct cfg.policy (t.slotAt (t.retreat t.tail)) elem).1 ≠ .ok
    · -- the tail goes back to where it was
      have htail : t.advance (t.retreat t.tail) 1 = t.tail :=
        hsound.inv.indices.advance_retreat hsound.inv.indices.tail_lt
      have hsame : { t.toRingIndices with tail := t.advance (t.retreat t.tail) 1 } =
          t.toRingIndices := by
        rw [htail]
      rw [if_pos hok]
      refine ⟨⟨?_, hsound.inv.block_le⟩, ?_⟩
      · show RingIndices.Inv { t.toRingIndices with tail := t.advance (t.retreat t.tail) 1 }
        rw [hsame]
        exact hsound.inv.indices
      · show Ledger.Holds _
          {a | a ∈ RingIndices.slots { t.toRingIndices with tail := t.advance (t.retreat t.tail) 1 }}
        rw [hsame]
        exact hcopied.failed hok _ hsound.balanced hnot
    · rw [if_neg hok]
      refine ⟨⟨hinv, hsound.inv.block_le⟩, ?_⟩
      show Ledger.Holds _ {a | a ∈ RingIndices.slots _}
      rw [hslots]
      have hset := Ledger.setOf_mem_insert [] t.slots (t.slotAt (t.retreat t.tail))
      rw [List.nil_append, List.nil_append] at hset
      rw [hset]
      exact hcopied.constructed (not_not.mp hok) _ hsound.balanced hnot

/-- **`pop_front`** destroys the first element if there is no pointer to copy it to. -/
theorem Sound.popFront (h : Sound s) (hneeds : cfg.needsDestroy = true) (out : Option V)
    (hclean : Clean cfg s (.popFront out)) : Sound (popFront cfg s out).2 := by
  rw [RingBuffer.popFront]
  by_cases hcount : s.count = 0
  · rw [if_pos hcount]
    exact h
  rw [if_neg hcount]
  cases out with
  | none =>
    have hdrop := h.dropFirst hneeds hcount
    simp only [extractSlot, ne_eq, not_true_eq_false, if_false]
    rw [destroySlot, if_pos hneeds] at hdrop ⊢
    exact hdrop
  | some out =>
    have hfails : (s.cells.copyOut cfg.policy (s.slotAt s.tail) out).1.1 ≠ .ok :=
      fun hok => hclean.resolve_left hcount ⟨out, rfl, hok⟩
    show Sound (if (s.cells.copyOut cfg.policy (s.slotAt s.tail) out).1.1 ≠ Status.ok
      then _ else _ : (Status × Option V) × RingBuffer w V).2
    rw [if_pos hfails]
    exact ⟨⟨h.inv.indices, h.inv.block_le⟩, h.balanced⟩

/-- **`pop_back`** destroys the last element if there is no pointer to copy it to. -/
theorem Sound.popBack (h : Sound s) (hneeds : cfg.needsDestroy = true) (out : Option V)
    (hclean : Clean cfg s (.popBack out)) : Sound (popBack cfg s out).2 := by
  rw [RingBuffer.popBack]
  by_cases hcount : s.count = 0
  · rw [if_pos hcount]
    exact h
  rw [if_neg hcount]
  cases out with
  | none =>
    have hdrop := h.dropLast hneeds hcount
    simp only [extractSlot, ne_eq, not_true_eq_false, if_false]
    rw [destroySlot, if_pos hneeds] at hdrop ⊢
    exact hdrop
  | some out =>
    have hfails : (s.cells.copyOut cfg.policy (s.slotAt (s.retreat s.head)) out).1.1 ≠ .ok :=
      fun hok => hclean.resolve_left hcount ⟨out, rfl, hok⟩
    -- the head goes back to where it was
    have hsame : { s.toRingIndices with head := s.advance (s.retreat s.head) 1 } =
        s.toRingIndices := by
      rw [h.inv.indices.advance_retreat h.inv.indices.head_lt]
    show Sound (if (s.cells.copyOut cfg.policy (s.slotAt (s.retreat s.head)) out).1.1 ≠ Status.ok
      then _ else _ : (Status × Option V) × RingBuffer w V).2
    rw [if_pos hfails]
    refine ⟨⟨?_, h.inv.block_le⟩, ?_⟩
    · show RingIndices.Inv { s.toRingIndices with head := s.advance (s.retreat s.head) 1 }
      rw [hsame]
      exact h.inv.indices
    · show Ledger.Holds _
        {a | a ∈ RingIndices.slots { s.toRingIndices with head := s.advance (s.retreat s.head) 1 }}
      rw [hsame]
      exact h.balanced

/-- **`commit_read`** destroys the first elements. -/
theorem Sound.commitRead (h : Sound s) (hneeds : cfg.needsDestroy = true) (elemCount : BitVec w) :
    Sound (commitRead cfg s elemCount) := by
  rw [RingBuffer.commitRead]
  by_cases hnone : elemCount = 0 ∨ s.count = 0
  · rw [if_pos hnone]
    exact h
  rw [if_neg hnone]
  have hle : (if s.count < elemCount then s.count else elemCount) ≤ s.count := by
    by_cases hlt : s.count < elemCount
    · rw [if_pos hlt]
      exact BitVec.le_refl _
    · rw [if_neg hlt]
      exact BitVec.not_lt.mp hlt
  generalize (if s.count < elemCount then s.count else elemCount) = n at hle ⊢
  obtain ⟨cells, hfirst, -, hholds⟩ := destroyFirst_cases cfg h.inv (n := n.toNat) hle
  obtain ⟨hinv, hslots⟩ := h.inv.indices.drop hle
  simp only [hfirst]
  refine ⟨⟨hinv, h.inv.block_le⟩, ?_⟩
  show cells.ledger.Holds {a | a ∈ RingIndices.slots _}
  rw [hslots]
  exact hholds hneeds h.balanced

/-- **`clear`** destroys all elements. -/
theorem Sound.clear (h : Sound s) (hneeds : cfg.needsDestroy = true) :
    Sound (clear cfg s) ∧ (RingBuffer.clear cfg s).cells.ledger.Holds ∅ := by
  have hempty : {a : ℕ × ℕ | a ∈ ([] : List (ℕ × ℕ))} = ∅ := by simp
  have hzero : (0 : BitVec w).toNat = 0 := BitVec.toNat_zero
  rw [RingBuffer.clear]
  by_cases hcount : s.count = 0
  · have hslots : s.slots = [] := by
      rw [← List.length_eq_zero_iff, RingIndices.length_slots, hcount, hzero]
    rw [if_pos hcount]
    refine ⟨h, ?_⟩
    rw [← hempty, ← hslots]
    exact h.balanced
  rw [if_neg hcount]
  obtain ⟨cells, hfirst, -, hholds⟩ := destroyFirst_cases cfg h.inv (n := s.count.toNat) le_rfl
  have hall := hholds hneeds h.balanced
  rw [List.drop_eq_nil_of_le (by rw [RingIndices.length_slots]), hempty] at hall
  have hpos := h.inv.indices.capacity_pos
  simp only [hfirst]
  refine ⟨⟨⟨⟨hpos, h.inv.indices.capacity_lt, ?_, ?_, ?_⟩, h.inv.block_le⟩, ?_⟩, hall⟩
  · exact hzero.trans_lt hpos
  · exact hzero.trans_le (Nat.zero_le _)
  · show (0 : BitVec w).toNat = ((0 : BitVec w).toNat + (0 : BitVec w).toNat) % _
    rw [hzero, Nat.zero_mod]
  · have hslots : RingIndices.slots { s.toRingIndices with head := 0, tail := 0, count := 0 } = [] := by
      rw [← List.length_eq_zero_iff, RingIndices.length_slots]
      exact hzero
    show cells.ledger.Holds {a | a ∈ RingIndices.slots _}
    rw [hslots, hempty]
    exact hall

/-- **Every clean call** keeps the objects those of the elements. -/
theorem Sound.call (h : Sound s) (hneeds : cfg.needsDestroy = true) (c : Call w V)
    (hclean : Clean cfg s c) : Sound (call cfg s c).2 := by
  cases c with
  | pushBack elem allowOverwrite => exact h.pushBack hneeds elem allowOverwrite hclean
  | pushFront elem => exact h.pushFront hneeds elem hclean
  | popFront out => exact h.popFront hneeds out hclean
  | popBack out => exact h.popBack hneeds out hclean
  | peekFront out => exact h
  | peekBack out => exact h
  | peekAt index out => exact h
  | setAt index elem =>
    show Sound (setAt cfg s index elem).2
    cases elem with
    | none => exact h
    | some elem =>
      rw [setAt, if_pos (show s.count ≤ index from hclean)]
      exact h
  | reserve minCapacity =>
    show Sound (reserve cfg s minCapacity).2
    rw [reserve]
    by_cases hle : minCapacity ≤ s.capacity
    · rw [if_pos hle]
      exact h
    rw [if_neg hle]
    by_cases hgrowable : cfg.growable = false
    · rw [if_pos hgrowable]
      exact h
    rw [if_neg hgrowable]
    rw [BitVec.le_def, not_le] at hle
    have hfit : (growCapacity s.capacity minCapacity).toNat * cfg.elemSize.toNat < 2 ^ w := by
      refine hclean _ ?_
      rw [requested, if_pos ⟨by simpa using hgrowable, BitVec.lt_def.mpr hle⟩]
      rfl
    have hcount := h.inv.indices.count_le
    have henough := le_grownCapacity h.inv.indices.capacity_pos (2 ^ w) minCapacity.toNat
    rw [← toNat_growCapacity h.inv.indices.capacity_pos] at henough
    exact (h.relinearize (by omega) hfit).1
  | clear => exact (h.clear hneeds).1
  | foreach visit => exact h
  | commitRead elemCount => exact h.commitRead hneeds elemCount

theorem sound_init (cfg : RingConfig w V) (memory : ℕ × ℕ → V) : Sound (init cfg memory) :=
  ⟨inv_init cfg memory, balanced_init cfg memory⟩

end RingBuffer

end Memkit
