import Memkit.Sequences.RingBufferDeque

/-! # The zero-copy regions of the ring buffer

`readable_contiguous` and `writable_contiguous` hand out a pointer and a number of elements, and
`commit_read` and `commit_write` say how many of them were used.

* **`RegionCall`** — the calls of the interface, and what a user of the regions does.
* **`Inv.regionCall`** — all of them keep the counters in order, whatever the copies do.
* **`ReadableRegion`**, **`WritableRegion`** — what a region should be.
* **`readableRegion_iff`**, **`writableRegion_iff`** — the states in which it is. -/

namespace Memkit

namespace RingBuffer

open Mealy

variable {w : ℕ} {V : Type*} {cfg : RingConfig w V} {s t : RingBuffer w V}

/-- A call of the interface, or a use of the regions. -/
inductive RegionCall (w : ℕ) (V : Type*)
  | interface (c : Call w V)
  | writableContiguous (hasOut : Bool)
  /-- The user writes an element through the pointer. -/
  | store (slot : ℕ × ℕ) (elem : V)
  | commitWrite (elemCount : BitVec w)

/-- Dispatch a call, whose answer is left out. -/
def regionCall (cfg : RingConfig w V) (s : RingBuffer w V) : RegionCall w V → Unit × RingBuffer w V
  | .interface c => ((), (call cfg s c).2)
  | .writableContiguous hasOut => ((), (writableContiguous cfg s hasOut).2)
  | .store slot elem => ((), { s with cells := s.cells.write slot elem })
  | .commitWrite elemCount => ((), commitWrite s elemCount)

/-- The size in bytes that a call asks for does not wrap. -/
def RegionFits (cfg : RingConfig w V) (s : RingBuffer w V) : RegionCall w V → Prop
  | .interface c => SizesFit cfg s c
  | .writableContiguous true =>
    cfg.growable = true → s.capacity ≤ s.count →
      (growCapacity s.capacity (s.count + 1)).toNat * cfg.elemSize.toNat < 2 ^ w
  | _ => True

instance (cfg : RingConfig w V) (s : RingBuffer w V) : ∀ c, Decidable (RegionFits cfg s c)
  | .interface c => inferInstanceAs (Decidable (SizesFit cfg s c))
  | .writableContiguous true => inferInstanceAs (Decidable (_ → _ → _))
  | .writableContiguous false => isTrue trivial
  | .store _ _ => isTrue trivial
  | .commitWrite _ => isTrue trivial

/-! ## The counters -/

/-- A buffer stands for the deque of its elements. -/
theorem Inv.represents (h : s.Inv) : Represents s ⟨s.items, s.capacity.toNat, s.allocs⟩ :=
  ⟨h, rfl, rfl, rfl⟩

/-- `extract_slot` does not touch the counters. -/
theorem extractSlot_cases (cfg : RingConfig w V) (s : RingBuffer w V) (slot : ℕ × ℕ)
    (out : Option V) : ∃ cells, (extractSlot cfg s slot out).2 = { s with cells := cells } := by
  cases out with
  | none =>
    obtain ⟨cells, hdestroy, -⟩ := destroySlot_cases cfg s slot
    exact ⟨cells, hdestroy⟩
  | some out => exact ⟨_, rfl⟩

/-- `push_back`, whether or not the copy fails. -/
theorem Inv.pushBack (h : s.Inv) (elem : Option V) (allowOverwrite : Bool)
    (hfit : SizesFit cfg s (.pushBack elem allowOverwrite)) :
    (pushBack cfg s elem allowOverwrite).2.Inv := by
  cases elem with
  | none => exact h
  | some elem =>
    obtain ⟨-, hrep, hroom⟩ :=
      h.represents.makeRoomBack allowOverwrite (fits_of_requested hfit rfl)
    rw [pushBack_eq h.capacity_ne]
    generalize makeRoomBack cfg s allowOverwrite = room at hrep hroom ⊢
    obtain ⟨st, t⟩ := room
    by_cases hst : st ≠ .ok
    · simp only [if_pos hst]
      exact hrep.inv
    simp only [if_neg hst]
    by_cases hok : (t.cells.copyConstruct cfg.policy (t.slotAt t.head) elem).1 ≠ .ok
    · rw [if_pos hok]
      exact ⟨hrep.inv.indices, hrep.inv.block_le⟩
    · rw [if_neg hok]
      exact ⟨(hrep.inv.indices.push_back (hroom (not_not.mp hst))).1, hrep.inv.block_le⟩

/-- `push_front`, whether or not the copy fails. -/
theorem Inv.pushFront (h : s.Inv) (elem : Option V) (hfit : SizesFit cfg s (.pushFront elem)) :
    (pushFront cfg s elem).2.Inv := by
  cases elem with
  | none => exact h
  | some elem =>
    obtain ⟨-, hrep, hroom⟩ := h.represents.makeRoomFront (fits_of_requested hfit rfl)
    rw [RingBuffer.pushFront]
    generalize makeRoomFront cfg s = room at hrep hroom ⊢
    obtain ⟨st, t⟩ := room
    by_cases hst : st ≠ .ok
    · simp only [if_pos hst]
      exact hrep.inv
    simp only [if_neg hst]
    have htail := hrep.inv.indices.advance_retreat hrep.inv.indices.tail_lt
    show RingBuffer.Inv (if (t.cells.copyConstruct cfg.policy (t.slotAt (t.retreat t.tail)) elem).1 ≠
      Status.ok then _ else _ : Status × RingBuffer w V).2
    by_cases hok : (t.cells.copyConstruct cfg.policy (t.slotAt (t.retreat t.tail)) elem).1 ≠ .ok
    · -- the tail goes back to where it was
      rw [if_pos hok]
      refine ⟨?_, hrep.inv.block_le⟩
      show RingIndices.Inv { t.toRingIndices with tail := t.advance (t.retreat t.tail) 1 }
      rw [htail]
      exact hrep.inv.indices
    · rw [if_neg hok]
      exact ⟨(hrep.inv.indices.push_front (hroom (not_not.mp hst))).1, hrep.inv.block_le⟩

/-- `pop_front`, whether or not the copy fails. -/
theorem Inv.popFront (h : s.Inv) (out : Option V) : (popFront cfg s out).2.Inv := by
  unfold RingBuffer.popFront
  by_cases hcount : s.count = 0
  · rw [if_pos hcount]
    exact h
  rw [if_neg hcount]
  have hone := h.indices.toNat_one
  have hpred := WrapCounter.toNat_pred hcount
  obtain ⟨hinv, -⟩ := h.indices.drop (n := 1) (by rw [BitVec.le_def, hone]; omega)
  obtain ⟨cells, hextract⟩ := extractSlot_cases cfg s (s.slotAt s.tail) out
  generalize extractSlot cfg s (s.slotAt s.tail) out = r at hextract ⊢
  obtain ⟨⟨st, value⟩, t⟩ := r
  obtain rfl : t = { s with cells := cells } := hextract
  by_cases hst : st ≠ .ok
  · simp only [if_pos hst]
    exact ⟨h.indices, h.block_le⟩
  · simp only [if_neg hst]
    exact ⟨hinv, h.block_le⟩

/-- `pop_back`, whether or not the copy fails. -/
theorem Inv.popBack (h : s.Inv) (out : Option V) : (popBack cfg s out).2.Inv := by
  unfold RingBuffer.popBack
  by_cases hcount : s.count = 0
  · rw [if_pos hcount]
    exact h
  rw [if_neg hcount]
  obtain ⟨hinv, -⟩ := h.indices.pop_back hcount
  have hhead := h.indices.advance_retreat h.indices.head_lt
  dsimp only
  obtain ⟨cells, hextract⟩ := extractSlot_cases cfg { s with head := s.retreat s.head }
    (RingIndices.slotAt { s.toRingIndices with head := s.retreat s.head } (s.retreat s.head)) out
  generalize extractSlot cfg { s with head := s.retreat s.head }
    (RingIndices.slotAt { s.toRingIndices with head := s.retreat s.head } (s.retreat s.head)) out = r
    at hextract ⊢
  obtain ⟨⟨st, value⟩, t⟩ := r
  obtain rfl : t = { s with head := s.retreat s.head, cells := cells } := hextract
  by_cases hst : st ≠ .ok
  · simp only [if_pos hst]
    refine ⟨?_, h.block_le⟩
    show RingIndices.Inv { s.toRingIndices with head := s.advance (s.retreat s.head) 1 }
    rw [hhead]
    exact h.indices
  · simp only [if_neg hst]
    exact ⟨hinv, h.block_le⟩

/-- `set_at`, whether or not the copy fails. -/
theorem Inv.setAt (h : s.Inv) (index : BitVec w) (elem : Option V) :
    (setAt cfg s index elem).2.Inv := by
  cases elem with
  | none => exact h
  | some elem =>
    unfold RingBuffer.setAt
    by_cases hle : s.count ≤ index
    · simp only [if_pos hle]
      exact h
    · simp only [if_neg hle]
      exact ⟨h.indices, h.block_le⟩

/-- **Every call of the interface** keeps the counters in order. -/
theorem Inv.call (h : s.Inv) (c : Call w V) (hfit : SizesFit cfg s c) : (call cfg s c).2.Inv := by
  cases c with
  | pushBack elem allowOverwrite => exact h.pushBack elem allowOverwrite hfit
  | pushFront elem => exact h.pushFront elem hfit
  | popFront out => exact h.popFront out
  | popBack out => exact h.popBack out
  | peekFront out => exact h
  | peekBack out => exact h
  | peekAt index out => exact h
  | setAt index elem => exact h.setAt index elem
  | reserve minCapacity => exact (h.represents.reserve minCapacity hfit).2.inv
  | clear => exact h.represents.clear.inv
  | foreach visit => exact h
  | commitRead elemCount => exact (h.represents.commitRead elemCount).inv

/-! ## Reading -/

/-- `m` calls of `pop_front` without a pointer. -/
def dropFronts (cfg : RingConfig w V) (m : ℕ) (s : RingBuffer w V) : RingBuffer w V :=
  (fun s => (popFront cfg s none).2)^[m] s

/-- Calls of `pop_front` with pointers to what `outs` holds. -/
def popFronts (cfg : RingConfig w V) (s : RingBuffer w V) (out : V) :
    (Status × Option V) × RingBuffer w V :=
  popFront cfg s (some out)

/-- **The readable region**: it lies in the storage and has the first elements, and reading it and
committing is popping. -/
structure ReadableRegion (cfg : RingConfig w V) (s : RingBuffer w V) : Prop where
  length : (readableContiguous s true).2.toNat =
    min s.count.toNat (s.capacity.toNat - s.tail.toNat)
  pointer : s.count ≠ 0 → (readableContiguous s true).1 = some (s.block, s.tail.toNat)
  inside : s.tail.toNat + (readableContiguous s true).2.toNat ≤ s.capacity.toNat
  elements : (List.range (readableContiguous s true).2.toNat).map
      (fun i => s.cells.contents (s.block, s.tail.toNat + i)) =
    s.items.take (readableContiguous s true).2.toNat
  commit : ∀ m ≤ (readableContiguous s true).2, commitRead cfg s m = dropFronts cfg m.toNat s
  reads : cfg.policy.NonFailing → ∀ outs : List V,
    outs.length ≤ (readableContiguous s true).2.toNat →
    outputs (popFronts cfg) s outs = (List.range outs.length).map
        (fun i => (.ok, some (s.cells.contents (s.block, s.tail.toNat + i)))) ∧
      (final (popFronts cfg) s outs).items = (commitRead cfg s (BitVec.ofNat w outs.length)).items

/-- One more element destroyed at the start. -/
theorem destroyFirst_succ (cfg : RingConfig w V) (s : RingBuffer w V) (m : ℕ) :
    destroyFirst cfg s (m + 1) =
      destroySlot cfg (destroyFirst cfg s m) ((destroyFirst cfg s m).slotAt
        ((destroyFirst cfg s m).logicalIndex (BitVec.ofNat w m))) := by
  unfold destroyFirst
  rw [List.range_succ, List.foldl_append, List.foldl_cons, List.foldl_nil]

/-- Advancing by `m` and one more. -/
theorem advance_succ (h : s.Inv) {m : ℕ} (hm : m + 1 ≤ s.capacity.toNat) :
    s.advance (s.advance s.tail (BitVec.ofNat w m)) 1 =
      s.advance s.tail (BitVec.ofNat w (m + 1)) := by
  have hpos := h.indices.capacity_pos
  have hlt := s.capacity.isLt
  have hone := h.indices.toNat_one
  have hnat : ∀ k ≤ m + 1, (BitVec.ofNat w k).toNat = k := by
    intro k hk
    rw [BitVec.toNat_ofNat, Nat.mod_eq_of_lt (by omega)]
  have htail : (s.advance s.tail (BitVec.ofNat w m)).toNat =
      (s.tail.toNat + (BitVec.ofNat w m).toNat) % s.capacity.toNat :=
    h.indices.toNat_advance h.indices.tail_lt (by rw [hnat m (by omega)]; omega)
  apply BitVec.eq_of_toNat_eq
  rw [h.indices.toNat_advance (by rw [htail]; exact Nat.mod_lt _ hpos) (by omega), htail,
    h.indices.toNat_advance h.indices.tail_lt (by rw [hnat _ le_rfl]; omega), hone,
    hnat m (by omega), hnat _ le_rfl, Nat.mod_add_mod, Nat.add_assoc]

/-- Dropping one by one. -/
theorem dropFronts_eq (h : s.Inv) {m : ℕ} (hm : m ≤ s.count.toNat) :
    dropFronts cfg m s =
      { destroyFirst cfg s m with
        tail := s.advance s.tail (BitVec.ofNat w m)
        count := s.count - BitVec.ofNat w m } := by
  have hle := h.indices.count_le
  have hlt := s.count.isLt
  have hzero : (0 : BitVec w).toNat = 0 := BitVec.toNat_zero
  induction m with
  | zero =>
    have htail : s.advance s.tail 0 = s.tail := by
      apply BitVec.eq_of_toNat_eq
      rw [h.indices.toNat_advance h.indices.tail_lt (by rw [hzero]; exact Nat.zero_le _), hzero,
        Nat.add_zero, Nat.mod_eq_of_lt h.indices.tail_lt]
    have hcount : s.count - 0 = s.count := BitVec.sub_zero _
    show s = { s with tail := s.advance s.tail 0, count := s.count - 0 }
    rw [htail, hcount]
  | succ m ih =>
    have hnat : (BitVec.ofNat w m).toNat = m := by
      rw [BitVec.toNat_ofNat, Nat.mod_eq_of_lt (by omega)]
    have hcount : s.count - BitVec.ofNat w m ≠ 0 := by
      intro heq
      have hsub : (s.count - BitVec.ofNat w m).toNat = s.count.toNat - m := by
        rw [BitVec.toNat_sub_of_le (by rw [BitVec.le_def, hnat]; omega), hnat]
      rw [heq, hzero] at hsub
      omega
    have hsucc : s.count - BitVec.ofNat w m - 1 = s.count - BitVec.ofNat w (m + 1) := by
      rw [← WrapCounter.ofNat_succ, BitVec.sub_sub]
    unfold dropFronts at ih ⊢
    rw [Function.iterate_succ_apply', ih (by omega), destroyFirst_succ]
    obtain ⟨cells, hfirst, -, -⟩ := destroyFirst_cases cfg h (n := m) (by omega)
    rw [hfirst]
    unfold popFront
    rw [if_neg hcount]
    simp only [extractSlot, destroySlot_eq, ne_eq, not_true_eq_false, if_false, hsucc]
    rw [← advance_succ h (by omega)]
    rfl

/-- **`commit_read`** is popping. -/
theorem commitRead_eq (h : s.Inv) {m : BitVec w} (hm : m ≤ s.count) :
    commitRead cfg s m = dropFronts cfg m.toNat s := by
  have hzero : (0 : BitVec w).toNat = 0 := BitVec.toNat_zero
  unfold commitRead
  by_cases hnone : m = 0 ∨ s.count = 0
  · have hm0 : m.toNat = 0 := by
      rcases hnone with h0 | hcount
      · rw [h0, hzero]
      · rw [hcount, BitVec.le_def, hzero] at hm
        omega
    rw [if_pos hnone, hm0]
    rfl
  · have hself : BitVec.ofNat w m.toNat = m := by rw [BitVec.ofNat_toNat, BitVec.setWidth_eq]
    obtain ⟨cells, hfirst, -, -⟩ := destroyFirst_cases cfg h (n := m.toNat) (BitVec.le_def.mp hm)
    rw [if_neg hnone, dropFronts_eq h (BitVec.le_def.mp hm), if_neg (BitVec.not_lt.mpr hm), hself]
    dsimp only
    rw [hfirst]

/-- Popping into memory of the caller hands out the elements in order. -/
theorem popFronts_spec {d : Deque V} (h : Represents s d) (hpolicy : cfg.policy.NonFailing)
    (outs : List V) (hlen : outs.length ≤ d.items.length) :
    outputs (popFronts cfg) s outs = (d.items.take outs.length).map (fun x => (.ok, some x)) ∧
      Represents (final (popFronts cfg) s outs) { d with items := d.items.drop outs.length } := by
  induction outs generalizing s d with
  | nil => exact ⟨rfl, h⟩
  | cons out outs ih =>
    obtain ⟨xs, room, allocs⟩ := d
    cases xs with
    | nil => simp at hlen
    | cons x xs =>
      obtain ⟨hout, hnext⟩ := h.popFront hpolicy (some out)
      obtain ⟨houts, hfinal⟩ := ih hnext (by simpa using hlen)
      refine ⟨?_, hfinal⟩
      rw [outputs_cons, List.length_cons, List.take_succ_cons, List.map_cons]
      exact congrArg₂ List.cons hout houts

/-- `readable_contiguous` answers the number of elements, wherever they lie. -/
theorem readableContiguous_length (h : s.Inv) : (readableContiguous s true).2 = s.count := by
  have hhead := h.indices.head_eq
  have hle := h.indices.count_le
  have htail := h.indices.tail_lt
  unfold readableContiguous
  by_cases hcount : s.count = 0
  · rw [if_pos (.inl hcount), hcount]
  · rw [if_neg (not_or.mpr ⟨hcount, nofun⟩)]
    by_cases hlt : s.tail < s.head
    · have hlt' := BitVec.lt_def.mp hlt
      dsimp only
      rw [if_pos hlt]
      apply BitVec.eq_of_toNat_eq
      rw [BitVec.toNat_sub_of_le (BitVec.le_def.mpr hlt'.le)]
      by_cases hwrap : s.tail.toNat + s.count.toNat < s.capacity.toNat
      · rw [Nat.mod_eq_of_lt hwrap] at hhead
        omega
      · rw [Nat.mod_eq_sub_mod (by omega), Nat.mod_eq_of_lt (by omega)] at hhead
        omega
    · dsimp only
      rw [if_neg hlt]

/-- The first elements, if they lie before the end of the storage. -/
theorem take_items (s : RingBuffer w V) {n : ℕ} (hn : n ≤ s.count.toNat)
    (hin : s.tail.toNat + n ≤ s.capacity.toNat) :
    s.items.take n =
      (List.range n).map fun i => s.cells.contents (s.block, s.tail.toNat + i) := by
  rw [items, RingIndices.slots, ← List.map_take, ← List.map_take, CircularWindow.take_slots hn,
    CircularWindow.slots_of_le hin, List.map_map, List.map_map]
  rfl

/-- **The readable region is right exactly if the elements do not reach around the end.** -/
theorem Inv.readableRegion_iff (h : s.Inv) :
    ReadableRegion cfg s ↔ s.tail.toNat + s.count.toNat ≤ s.capacity.toNat := by
  have hlength := readableContiguous_length h
  constructor
  · intro hregion
    have hinside := hregion.inside
    rwa [hlength] at hinside
  · intro hin
    have hpointer : s.count ≠ 0 → (readableContiguous s true).1 = some (s.block, s.tail.toNat) := by
      intro hcount
      rw [readableContiguous, if_neg (not_or.mpr ⟨hcount, nofun⟩)]
      rfl
    refine ⟨?_, hpointer, ?_, ?_, ?_, ?_⟩
    · rw [hlength, min_eq_left (by omega)]
    · rwa [hlength]
    · rw [hlength]
      exact (take_items s le_rfl hin).symm
    · rw [hlength]
      exact fun m hm => commitRead_eq h hm
    · rw [hlength]
      intro hpolicy outs hlen
      have hnat : (BitVec.ofNat w outs.length).toNat = outs.length := by
        rw [BitVec.toNat_ofNat, Nat.mod_eq_of_lt (hlen.trans_lt s.count.isLt)]
      obtain ⟨houts, hfinal⟩ := popFronts_spec h.represents hpolicy outs (by rwa [length_items])
      have hcommit := @Represents.commitRead w V cfg _ _ h.represents (BitVec.ofNat w outs.length)
      refine ⟨?_, ?_⟩
      · rw [houts, take_items s hlen (by omega), List.map_map]
        rfl
      · rw [hfinal.items, hcommit.items, hnat]

/-! ## Writing -/

/-- Write elements one after another, from a slot on. -/
def fill (s : RingBuffer w V) (slot : ℕ × ℕ) : List V → RingBuffer w V
  | [] => s
  | x :: xs => fill { s with cells := s.cells.write slot x } (slot.1, slot.2 + 1) xs

/-- Calls of `push_back`. -/
def pushBacks (cfg : RingConfig w V) (allowOverwrite : Bool) (s : RingBuffer w V) (x : V) :
    Status × RingBuffer w V :=
  pushBack cfg s (some x) allowOverwrite

/-- **The writable region**: it lies in the storage and no element is in it, and filling it and
committing is pushing. -/
structure WritableRegion (cfg : RingConfig w V) (s : RingBuffer w V) : Prop where
  pointer : ∀ slot, (writableContiguous cfg s true).1.1 = some slot →
    slot = ((writableContiguous cfg s true).2.block, (writableContiguous cfg s true).2.head.toNat)
  refused : (writableContiguous cfg s true).1.1 = none → (writableContiguous cfg s true).1.2 = 0
  kept : (writableContiguous cfg s true).2.items = s.items
  inside : ∀ slot, (writableContiguous cfg s true).1.1 = some slot →
    slot.2 + (writableContiguous cfg s true).1.2.toNat ≤
      (writableContiguous cfg s true).2.capacity.toNat
  free : ∀ slot, (writableContiguous cfg s true).1.1 = some slot →
    ∀ i < (writableContiguous cfg s true).1.2.toNat,
      (slot.1, slot.2 + i) ∉ (writableContiguous cfg s true).2.slots
  commit : ∀ slot, (writableContiguous cfg s true).1.1 = some slot →
    ∀ xs : List V, xs.length ≤ (writableContiguous cfg s true).1.2.toNat →
      (commitWrite (fill (writableContiguous cfg s true).2 slot xs)
        (BitVec.ofNat w xs.length)).items = s.items ++ xs
  pushes : cfg.policy.NonFailing → ∀ allowOverwrite, ∀ xs : List V,
    xs.length ≤ (writableContiguous cfg s true).1.2.toNat →
      outputs (pushBacks cfg allowOverwrite) s xs = xs.map (fun _ => .ok) ∧
        (final (pushBacks cfg allowOverwrite) s xs).items = s.items ++ xs

/-- Counting `n` more slots at the end. -/
theorem append_slots {r : RingIndices w} (h : r.Inv) {n : ℕ}
    (hn : r.count.toNat + n ≤ r.capacity.toNat) :
    let r' := { r with
      head := r.advance r.head (BitVec.ofNat w n)
      count := r.count + BitVec.ofNat w n }
    r'.Inv ∧ r'.slots = r.slots ++
      (CircularWindow.slots r.capacity.toNat r.head.toNat n).map fun i => (r.block, i) := by
  have hlt := r.capacity.isLt
  have hnat : (BitVec.ofNat w n).toNat = n := by
    rw [BitVec.toNat_ofNat, Nat.mod_eq_of_lt (by omega)]
  have hcount : (r.count + BitVec.ofNat w n).toNat = r.count.toNat + n := by
    rw [BitVec.toNat_add, hnat, Nat.mod_eq_of_lt (by omega)]
  refine ⟨⟨h.capacity_pos, h.capacity_lt, h.tail_lt, ?_, ?_⟩, ?_⟩
  · show (r.count + BitVec.ofNat w n).toNat ≤ r.capacity.toNat
    rw [hcount]
    exact hn
  · show (r.advance r.head (BitVec.ofNat w n)).toNat =
      (r.tail.toNat + (r.count + BitVec.ofNat w n).toNat) % r.capacity.toNat
    rw [h.toNat_advance h.head_lt (by rw [hnat]; omega), hcount, hnat, h.head_eq, Nat.mod_add_mod,
      Nat.add_assoc]
  · show (CircularWindow.slots r.capacity.toNat r.tail.toNat
      (r.count + BitVec.ofNat w n).toNat).map _ = _
    rw [hcount, CircularWindow.slots_add, List.map_append, ← h.head_eq]
    rfl

/-- `commit_write` counts no more slots than there are. -/
theorem Inv.commitWrite (h : s.Inv) (elemCount : BitVec w) : (commitWrite s elemCount).Inv := by
  have hle := h.indices.count_le
  unfold RingBuffer.commitWrite
  by_cases hnone : elemCount = 0
  · rw [if_pos hnone]
    exact h
  rw [if_neg hnone]
  dsimp only
  generalize hn : (if s.capacity - s.count < elemCount then s.capacity - s.count else elemCount) = n
  have hfree : n ≤ s.capacity - s.count := by
    rw [← hn]
    split
    · exact BitVec.le_refl _
    · next hlt => exact BitVec.not_lt.mp hlt
  rw [BitVec.le_def, BitVec.toNat_sub_of_le (BitVec.le_def.mpr hle)] at hfree
  have happend := (append_slots h.indices (n := n.toNat) (by omega)).1
  rw [BitVec.ofNat_toNat, BitVec.setWidth_eq] at happend
  exact ⟨happend, h.block_le⟩

/-- Growth puts the first element into the first slot. -/
theorem tail_ensureRoom (hfull : s.capacity ≤ s.count) (hok : (ensureRoom cfg s).1 = .ok) :
    (ensureRoom cfg s).2.tail = 0 := by
  unfold ensureRoom at hok ⊢
  rw [if_neg (BitVec.not_lt.mpr hfull)] at hok ⊢
  split at hok
  · cases hok
  · next hgrowable =>
    rw [if_neg hgrowable]
    dsimp only at hok ⊢
    split at hok
    · cases hok
    · next hmore =>
      rw [if_neg hmore]
      unfold relinearize at hok ⊢
      split at hok
      · cases hok
      · next hless =>
        rw [if_neg hless]
        dsimp only at hok ⊢
        split at hok
        · next hst => exact absurd hok hst
        · next hst => rw [if_neg hst]

/-- The state in which a writable region is handed out, and why there is room in it. -/
structure Roomy (cfg : RingConfig w V) (s t : RingBuffer w V) : Prop where
  inv : t.Inv
  items : t.items = s.items
  room : t.count.toNat < t.capacity.toNat
  origin : (s.count < s.capacity ∧ t = s) ∨
    (s.capacity ≤ s.count ∧ cfg.growable = true ∧ ensureRoom cfg s = (.ok, t) ∧ t.tail = 0)

/-- **`writable_contiguous`** hands out nothing, or the slots from `head_` on, after growing a full
buffer. -/
theorem writableContiguous_cases (h : s.Inv)
    (hfit : RegionFits cfg s (.writableContiguous true)) :
    (s.capacity ≤ s.count ∧ ∃ t, writableContiguous cfg s true = ((none, 0), t) ∧ t.Inv ∧
      t.items = s.items) ∨
    ∃ t, Roomy cfg s t ∧ writableContiguous cfg s true =
      ((some (t.slotAt t.head),
        if t.tail ≤ t.head then t.capacity - t.count else t.head - t.tail), t) := by
  unfold writableContiguous
  rw [if_neg (by decide)]
  by_cases hfull : s.capacity ≤ s.count
  · by_cases hgrowable : cfg.growable = true
    · obtain ⟨-, hrep, hroom⟩ :=
        h.represents.ensureRoom hfull hgrowable (hfit hgrowable hfull)
      have htail := @tail_ensureRoom w V cfg s hfull
      have hitems : (ensureRoom cfg s).2.items = s.items := by
        rw [hrep.items]
        unfold Deque.grow
        dsimp only
        split
        · rfl
        · rfl
      rw [if_pos hfull, if_neg (by simp [hgrowable])]
      generalize hresult : ensureRoom cfg s = r at hrep hroom htail hitems
      obtain ⟨st, t⟩ := r
      by_cases hst : st = .ok
      · refine .inr ⟨t, ⟨hrep.inv, hitems, hroom hst, .inr ⟨hfull, hgrowable, ?_, htail hst⟩⟩, ?_⟩
        · rw [← hst]
          exact hresult
        · simp only [hst, ne_eq, not_true_eq_false, if_false]
      · refine .inl ⟨hfull, t, ?_, hrep.inv, hitems⟩
        simp only [hst, ne_eq, not_false_eq_true, if_true]
    · rw [if_pos hfull, if_pos (by simpa using hgrowable)]
      exact .inl ⟨hfull, s, rfl, h, rfl⟩
  · rw [if_neg hfull]
    refine .inr ⟨s, ⟨h, rfl, ?_, .inl ⟨BitVec.not_le.mp hfull, rfl⟩⟩, rfl⟩
    exact BitVec.lt_def.mp (BitVec.not_le.mp hfull)

/-- **Every call and every use of the regions** keeps the counters in order. -/
theorem Inv.regionCall (h : s.Inv) (c : RegionCall w V) (hfit : RegionFits cfg s c) :
    (regionCall cfg s c).2.Inv := by
  cases c with
  | interface c => exact h.call c hfit
  | writableContiguous hasOut =>
    cases hasOut with
    | false => exact h
    | true =>
      show (RingBuffer.writableContiguous cfg s true).2.Inv
      rcases writableContiguous_cases h hfit with ⟨-, t, heq, hinv, -⟩ | ⟨t, hroomy, heq⟩
      · rw [heq]
        exact hinv
      · rw [heq]
        exact hroomy.inv
  | store slot elem => exact ⟨h.indices, h.block_le⟩
  | commitWrite elemCount => exact h.commitWrite elemCount

/-- Filling writes the slots one after another and leaves the others alone. -/
theorem fill_cases (s : RingBuffer w V) (slot : ℕ × ℕ) (xs : List V) :
    ∃ cells, fill s slot xs = { s with cells := cells } ∧
      (∀ a, (∀ i < xs.length, a ≠ (slot.1, slot.2 + i)) →
        cells.contents a = s.cells.contents a) ∧
      (List.range xs.length).map (fun i => cells.contents (slot.1, slot.2 + i)) = xs := by
  induction xs generalizing s slot with
  | nil => exact ⟨s.cells, rfl, fun _ _ => rfl, rfl⟩
  | cons x xs ih =>
    obtain ⟨cells, hfill, hframe, hmap⟩ :=
      ih { s with cells := s.cells.write slot x } (slot.1, slot.2 + 1)
    refine ⟨cells, hfill, ?_, ?_⟩
    · intro a ha
      rw [hframe a ?_]
      · exact Function.update_of_ne (ha 0 (by simp)) _ _
      · intro i hi
        have hne := ha (i + 1) (by simpa using hi)
        rwa [← Nat.add_assoc, Nat.add_right_comm] at hne
    · have hfirst : cells.contents (slot.1, slot.2 + 0) = x := by
        rw [hframe _ fun i _ heq => ?_]
        · exact Function.update_self _ _ _
        · have hindex := (Prod.mk.inj heq).2
          omega
      rw [List.length_cons, List.range_succ_eq_map, List.map_cons, List.map_map, hfirst]
      congr 1
      refine Eq.trans (List.map_congr_left fun i _ => ?_) hmap
      show cells.contents (slot.1, slot.2 + (i + 1)) = cells.contents (slot.1, slot.2 + 1 + i)
      congr 2
      omega

/-- **Filling and committing** adds the elements at the end. -/
theorem items_commitWrite (h : t.Inv) {xs : List V}
    (hroom : t.count.toNat + xs.length ≤ t.capacity.toNat)
    (hin : t.head.toNat + xs.length ≤ t.capacity.toNat)
    (hfree : ∀ i < xs.length, (t.block, t.head.toNat + i) ∉ t.slots) :
    (commitWrite (fill t (t.slotAt t.head) xs) (BitVec.ofNat w xs.length)).items =
      t.items ++ xs := by
  have hlt := t.capacity.isLt
  obtain ⟨cells, hfill, hframe, hmap⟩ := fill_cases t (t.slotAt t.head) xs
  have hkept : t.slots.map cells.contents = t.items := by
    apply List.map_congr_left
    intro a ha
    exact hframe a fun i hi heq => hfree i hi (heq ▸ ha)
  have hnat : (BitVec.ofNat w xs.length).toNat = xs.length := by
    rw [BitVec.toNat_ofNat, Nat.mod_eq_of_lt (by omega)]
  rw [hfill]
  unfold commitWrite
  by_cases hnone : BitVec.ofNat w xs.length = 0
  · have hlen : xs.length = 0 := by
      rw [← hnat, hnone]
      exact BitVec.toNat_zero
    rw [if_pos hnone, List.length_eq_zero_iff.mp hlen, List.append_nil]
    exact hkept
  · have hless : ¬ t.capacity - t.count < BitVec.ofNat w xs.length := by
      rw [BitVec.not_lt, BitVec.le_def, hnat,
        BitVec.toNat_sub_of_le (BitVec.le_def.mpr h.indices.count_le)]
      omega
    rw [if_neg hnone]
    dsimp only
    rw [if_neg hless]
    show ((RingIndices.slots { t.toRingIndices with
      head := t.advance t.head (BitVec.ofNat w xs.length)
      count := t.count + BitVec.ofNat w xs.length }).map cells.contents) = _
    rw [(append_slots h.indices hroom).2, List.map_append, hkept, CircularWindow.slots_of_le hin,
      List.map_map, List.map_map]
    congr 1

/-- Pushing while there is room. -/
theorem pushBacks_spec {d : Deque V} (h : Represents s d) (hpolicy : cfg.policy.NonFailing)
    (allowOverwrite : Bool) (xs : List V) (hroom : d.items.length + xs.length ≤ d.room) :
    outputs (pushBacks cfg allowOverwrite) s xs = xs.map (fun _ => .ok) ∧
      Represents (final (pushBacks cfg allowOverwrite) s xs) { d with items := d.items ++ xs } := by
  induction xs generalizing s d with
  | nil =>
    refine ⟨rfl, ?_⟩
    rw [List.append_nil]
    exact h
  | cons x xs ih =>
    rw [List.length_cons] at hroom
    have hless : d.items.length < d.room := by omega
    have hfit : SizesFit cfg s (.pushBack (some x) allowOverwrite) := by
      intro newCapacity hrequested
      have hnot : ¬ (cfg.growable = true ∧ s.capacity ≤ s.count) :=
        fun hand => h.full_iff.mp hand.2 hless
      rw [requested, if_neg hnot] at hrequested
      cases hrequested
    have hdeque : d.pushBack cfg (some x) allowOverwrite = (.ok, { d with items := d.items ++ [x] }) := by
      simp only [Deque.pushBack, Deque.makeRoom, if_pos hless, ne_eq, not_true_eq_false, if_false]
    obtain ⟨hst, hnext⟩ := h.pushBack hpolicy (some x) allowOverwrite hfit
    rw [hdeque] at hst hnext
    obtain ⟨houts, hfinal⟩ := ih hnext (by simp; omega)
    rw [List.append_assoc, List.singleton_append] at hfinal
    refine ⟨?_, hfinal⟩
    rw [outputs_cons, List.map_cons]
    exact congrArg₂ List.cons hst houts

/-- Pushing to a buffer that must grow is pushing to the grown one. -/
theorem Roomy.pushBack_eq (h : Roomy cfg s t) (hinv : s.Inv) (allowOverwrite : Bool) (x : V) :
    pushBack cfg s (some x) allowOverwrite = pushBack cfg t (some x) allowOverwrite := by
  rcases h.origin with ⟨-, rfl⟩ | ⟨hfull, hgrowable, hgrow, -⟩
  · rfl
  · have hroom : makeRoomBack cfg s allowOverwrite = makeRoomBack cfg t allowOverwrite := by
      have hless : ¬ t.capacity ≤ t.count := by
        rw [BitVec.le_def, not_le]
        exact h.room
      rw [makeRoomBack, makeRoomBack, if_pos hfull, if_pos hgrowable, hgrow, if_neg hless]
    rw [RingBuffer.pushBack_eq hinv.capacity_ne, RingBuffer.pushBack_eq h.inv.capacity_ne, hroom]

/-- So are all pushes. -/
theorem Roomy.pushBacks (h : Roomy cfg s t) (hinv : s.Inv) (hpolicy : cfg.policy.NonFailing)
    (allowOverwrite : Bool) (xs : List V) (hlen : t.count.toNat + xs.length ≤ t.capacity.toNat) :
    outputs (pushBacks cfg allowOverwrite) s xs = xs.map (fun _ => .ok) ∧
      (final (pushBacks cfg allowOverwrite) s xs).items = s.items ++ xs := by
  cases xs with
  | nil => exact ⟨rfl, (List.append_nil _).symm⟩
  | cons x xs =>
    obtain ⟨houts, hfinal⟩ := pushBacks_spec h.inv.represents hpolicy allowOverwrite
      (x :: xs) (by rwa [length_items])
    have hitems := hfinal.items
    simp only [outputs_cons, final_cons, RingBuffer.pushBacks, h.pushBack_eq hinv] at houts hitems ⊢
    exact ⟨houts, hitems.trans (by rw [h.items])⟩

/-- A region of the length that is handed out leaves the storage if the first element is not in the
first slot. -/
theorem tail_eq_zero_of_inside (h : s.Inv) (hroom : s.count.toNat < s.capacity.toNat)
    (hinside : s.head.toNat +
      (if s.tail ≤ s.head then s.capacity - s.count else s.head - s.tail).toNat ≤
        s.capacity.toNat) : s.tail = 0 := by
  have hhead := h.indices.head_eq
  have hdouble := h.indices.two_mul_capacity_lt
  have htail := h.indices.tail_lt
  apply BitVec.eq_of_toNat_eq
  rw [show (0 : BitVec w).toNat = 0 from BitVec.toNat_zero]
  by_cases hle : s.tail ≤ s.head
  · have hle' := BitVec.le_def.mp hle
    rw [if_pos hle, BitVec.toNat_sub_of_le (BitVec.le_def.mpr hroom.le)] at hinside
    by_cases hwrap : s.tail.toNat + s.count.toNat < s.capacity.toNat
    · rw [Nat.mod_eq_of_lt hwrap] at hhead
      omega
    · rw [Nat.mod_eq_sub_mod (by omega), Nat.mod_eq_of_lt (by omega)] at hhead
      omega
  · -- the difference wraps
    have hlt : s.head.toNat < s.tail.toNat := by
      rw [BitVec.le_def, not_le] at hle
      exact hle
    have hheadlt := s.head.isLt
    rw [if_neg (by rwa [BitVec.le_def, not_le]), BitVec.toNat_sub,
      Nat.mod_eq_of_lt (by omega)] at hinside
    omega

/-- The region is right if the first element is in the first slot. -/
theorem Roomy.writableRegion (h : Roomy cfg s t) (hinv : s.Inv) (htail : t.tail = 0)
    (heq : writableContiguous cfg s true =
      ((some (t.slotAt t.head),
        if t.tail ≤ t.head then t.capacity - t.count else t.head - t.tail), t)) :
    WritableRegion cfg s := by
  have hzero : (0 : BitVec w).toNat = 0 := BitVec.toNat_zero
  have hroom := h.room
  have htail' : t.tail.toNat = 0 := by rw [htail, hzero]
  -- with the tail at zero the elements are in front, and the head stands after the last
  have hhead : t.head.toNat = t.count.toNat := by
    rw [h.inv.indices.head_eq, htail', Nat.zero_add, Nat.mod_eq_of_lt hroom]
  have hle : t.tail ≤ t.head := by
    rw [BitVec.le_def, htail']
    exact Nat.zero_le _
  have hlen : (t.capacity - t.count).toNat = t.capacity.toNat - t.count.toNat :=
    BitVec.toNat_sub_of_le (BitVec.le_def.mpr hroom.le)
  -- none of the slots from the head on holds an element
  have hfree : ∀ i, (t.block, t.head.toNat + i) ∉ t.slots := by
    intro i hmem
    rw [RingIndices.slots, CircularWindow.slots_of_le (by omega)] at hmem
    obtain ⟨j, hj, heq⟩ := List.mem_map.mp hmem
    obtain ⟨k, hk, rfl⟩ := List.mem_map.mp hj
    have hindex := (Prod.mk.inj heq).2
    rw [List.mem_range] at hk
    omega
  rw [if_pos hle] at heq
  refine ⟨?_, ?_, ?_, ?_, ?_, ?_, ?_⟩
  · rw [heq]
    rintro slot hslot
    exact (Option.some.inj hslot).symm
  · rw [heq]
    rintro ⟨⟩
  · rw [heq]
    exact h.items
  · rw [heq]
    rintro slot hslot
    obtain rfl := Option.some.inj hslot
    show t.head.toNat + (t.capacity - t.count).toNat ≤ t.capacity.toNat
    omega
  · rw [heq]
    rintro slot hslot i -
    obtain rfl := Option.some.inj hslot
    exact hfree i
  · rw [heq]
    rintro slot hslot xs hxs
    obtain rfl := Option.some.inj hslot
    rw [hlen] at hxs
    rw [items_commitWrite h.inv (by omega) (by omega) fun i _ => hfree i, h.items]
  · rw [heq]
    intro hpolicy allowOverwrite xs hxs
    rw [hlen] at hxs
    exact h.pushBacks hinv hpolicy allowOverwrite xs (by omega)

/-- Nothing is handed out. -/
theorem writableRegion_of_none (heq : writableContiguous cfg s true = ((none, 0), t))
    (hitems : t.items = s.items) : WritableRegion cfg s := by
  refine ⟨?_, ?_, ?_, ?_, ?_, ?_, ?_⟩
  · rw [heq]
    exact nofun
  · rw [heq]
    exact fun _ => rfl
  · rw [heq]
    exact hitems
  · rw [heq]
    exact nofun
  · rw [heq]
    exact nofun
  · rw [heq]
    exact nofun
  · rw [heq]
    intro _ allowOverwrite xs hxs
    have hnil : xs = [] := by
      rw [← List.length_eq_zero_iff]
      exact Nat.le_zero.mp (hxs.trans (BitVec.toNat_zero (w := w)).le)
    subst hnil
    exact ⟨rfl, (List.append_nil _).symm⟩

/-- **The writable region is right exactly if the buffer is full or its first element is in the
first slot.** -/
theorem Inv.writableRegion_iff (h : s.Inv) (hfit : RegionFits cfg s (.writableContiguous true)) :
    WritableRegion cfg s ↔ s.capacity ≤ s.count ∨ s.tail = 0 := by
  rcases writableContiguous_cases h hfit with ⟨hfull, t, heq, -, hitems⟩ | ⟨t, hroomy, heq⟩
  · exact iff_of_true (writableRegion_of_none heq hitems) (.inl hfull)
  · rcases hroomy.origin with ⟨hless, rfl⟩ | ⟨hfull, -, -, htail⟩
    · constructor
      · intro hregion
        have hinside := hregion.inside (t.slotAt t.head) (by rw [heq])
        rw [heq] at hinside
        exact .inr (tail_eq_zero_of_inside h hroomy.room hinside)
      · rintro (hfull | htail)
        · exact absurd hless (BitVec.not_lt.mpr hfull)
        · exact hroomy.writableRegion h htail heq
    · exact iff_of_true (hroomy.writableRegion h htail heq) (.inl hfull)

/-! ## Runs -/

/-- The counters are in order in every state. -/
theorem inv_regionCalls (cfg : RingConfig w V) (memory : ℕ × ℕ → V) (calls : List (RegionCall w V))
    (hfit : EveryCall (regionCall cfg) (RegionFits cfg) (init cfg memory) calls) :
    (final (regionCall cfg) (init cfg memory) calls).Inv :=
  hfit.final_invariant RingBuffer.Inv (fun _ c h hfit => h.regionCall c hfit) (inv_init cfg memory)

/-- **Zero-copy reading** is right in exactly the states whose elements do not reach around the end
of the storage. -/
theorem readable_region_iff (cfg : RingConfig w V) (memory : ℕ × ℕ → V)
    (calls : List (RegionCall w V))
    (hfit : EveryCall (regionCall cfg) (RegionFits cfg) (init cfg memory) calls) :
    let s := final (regionCall cfg) (init cfg memory) calls
    ReadableRegion cfg s ↔ s.tail.toNat + s.count.toNat ≤ s.capacity.toNat :=
  (inv_regionCalls cfg memory calls hfit).readableRegion_iff

/-- Two elements from the first slot on. -/
theorem readable_region_iff_pairRing :
    ReadableRegion pairRing (final (regionCall pairRing) (init pairRing fun _ => 0)
      [.interface (.pushBack (some 1) false), .interface (.pushBack (some 2) false)]) :=
  (readable_region_iff pairRing (fun _ => 0) [.interface (.pushBack (some 1) false),
    .interface (.pushBack (some 2) false)] (by decide +kernel)).mpr (by decide +kernel)

/-- **Reading past the end**: the two elements of a buffer of two slots are in the second slot and
in the first, and the region is said to have two elements from the second slot on. -/
theorem not_readable_region :
    ¬ ReadableRegion pairRing (final (regionCall pairRing) (init pairRing fun _ => 0)
      [.interface (.pushBack (some 1) false), .interface (.pushBack (some 2) false),
        .interface (.popFront none), .interface (.pushBack (some 3) false)]) := by
  intro hregion
  have hinside := hregion.inside
  revert hinside
  decide +kernel

/-- **Zero-copy writing** is right in exactly the states in which the buffer is full or its first
element is in the first slot. -/
theorem writable_region_iff (cfg : RingConfig w V) (memory : ℕ × ℕ → V)
    (calls : List (RegionCall w V))
    (hfit : EveryCall (regionCall cfg) (RegionFits cfg) (init cfg memory) calls)
    (hgrow : RegionFits cfg (final (regionCall cfg) (init cfg memory) calls)
      (.writableContiguous true)) :
    let s := final (regionCall cfg) (init cfg memory) calls
    WritableRegion cfg s ↔ s.capacity ≤ s.count ∨ s.tail = 0 :=
  (inv_regionCalls cfg memory calls hfit).writableRegion_iff hgrow

/-- A wrapped buffer that is full grows, and its new free slots are handed out. -/
theorem writable_region_iff_pairRing :
    WritableRegion pairRing (final (regionCall pairRing) (init pairRing fun _ => 0)
      [.interface (.pushBack (some 1) false), .interface (.pushBack (some 2) false),
        .interface (.popFront none), .interface (.pushBack (some 3) false)]) :=
  (writable_region_iff pairRing (fun _ => 0)
    [.interface (.pushBack (some 1) false), .interface (.pushBack (some 2) false),
      .interface (.popFront none), .interface (.pushBack (some 3) false)]
    (by decide +kernel) (by decide +kernel)).mpr (by decide +kernel)

/-- **Writing past the end**: the buffer of two slots is empty and its next slot is the second one,
and the region is said to have two slots from there on. -/
theorem not_writable_region :
    ¬ WritableRegion pairRing (final (regionCall pairRing) (init pairRing fun _ => 0)
      [.interface (.pushBack (some 1) false), .interface (.popFront none)]) := by
  intro hregion
  have hinside := hregion.inside (0, 1) (by decide +kernel)
  revert hinside
  decide +kernel

end RingBuffer

end Memkit
