import Memkit.Caching.LruCacheRefinement
import Memkit.Hashing.ChainingMap
import Memkit.Hashing.HashDivisors
import Memkit.Sequences.RingBufferDeque

/-! # The divisors of the ring buffer

Every index of the ring buffer is reduced modulo `capacity_`, which is zero in a buffer that was
default-constructed or reset. `divisors` lists the divisors of the remainders that an operation
computes, in order; it follows the operation through its branches and loops.

* **`RingObject`** — a ring buffer over its life: constructed, initialised, used and reset. What
  reset leaves (`Blank`) refuses every operation before its first remainder, but for
  `commit_write`. -/

namespace Memkit

variable {w : ℕ} {V : Type*}

namespace RingBuffer

/-! ## The divisors of the operations -/

/-- The divisors of the loops that destroy the first elements. -/
def destroyFirstDivisors (cfg : RingConfig w V) (s : RingBuffer w V) (elemCount : ℕ) : List ℕ :=
  if cfg.needsDestroy then List.replicate elemCount s.capacity.toNat else []

/-- The divisors of `relinearize`: the old capacity, for each element. -/
def relinearizeDivisors (cfg : RingConfig w V) (s : RingBuffer w V) (newCapacity : BitVec w) :
    List ℕ :=
  if newCapacity < s.count then []
  else if cfg.allocate s.allocs (newCapacity * cfg.elemSize) ≠ .ok then []
  else List.replicate s.count.toNat s.capacity.toNat

/-- The divisors of `ensure_room`. -/
def ensureRoomDivisors (cfg : RingConfig w V) (s : RingBuffer w V) : List ℕ :=
  if s.count < s.capacity then []
  else if cfg.growable = false then []
  else
    let newCapacity := growCapacity s.capacity (s.count + 1)
    if newCapacity ≤ s.capacity then [] else relinearizeDivisors cfg s newCapacity

/-- The divisors of `makeRoomBack`. -/
def makeRoomBackDivisors (cfg : RingConfig w V) (s : RingBuffer w V) (allowOverwrite : Bool) :
    List ℕ :=
  if s.capacity ≤ s.count then
    if cfg.growable then ensureRoomDivisors cfg s
    else if allowOverwrite || cfg.overwriteOnFull then [s.capacity.toNat]
    else []
  else []

/-- The divisors of `push_back`. -/
def pushBackDivisors (cfg : RingConfig w V) (s : RingBuffer w V) (elem : Option V)
    (allowOverwrite : Bool) : List ℕ :=
  match elem with
  | none => []
  | some elem =>
    if s.capacity = 0 then []
    else if s.count = s.capacity ∧ cfg.growable = false ∧ allowOverwrite = false ∧
        cfg.overwriteOnFull = false then
      []
    else
      makeRoomBackDivisors cfg s allowOverwrite ++
        let (roomSt, s) := makeRoomBack cfg s allowOverwrite
        if roomSt ≠ .ok then []
        else
          let (copySt, _) := s.cells.copyConstruct cfg.policy (s.slotAt s.head) elem
          if copySt ≠ .ok then [] else [s.capacity.toNat]

/-- The divisors of `makeRoomFront`. -/
def makeRoomFrontDivisors (cfg : RingConfig w V) (s : RingBuffer w V) : List ℕ :=
  if s.capacity ≤ s.count then
    if cfg.growable then ensureRoomDivisors cfg s
    else if cfg.overwriteOnFull then
      (if cfg.needsDestroy then [s.capacity.toNat] else []) ++ [s.capacity.toNat]
    else []
  else []

/-- The divisors of `push_front`. -/
def pushFrontDivisors (cfg : RingConfig w V) (s : RingBuffer w V) (elem : Option V) : List ℕ :=
  match elem with
  | none => []
  | some elem =>
    makeRoomFrontDivisors cfg s ++
      let (roomSt, s) := makeRoomFront cfg s
      if roomSt ≠ .ok then []
      else
        s.capacity.toNat ::
          let (copySt, _) := s.cells.copyConstruct cfg.policy (s.slotAt (s.retreat s.tail)) elem
          if copySt ≠ .ok then [s.capacity.toNat] else []

/-- The divisors of `pop_front`. -/
def popFrontDivisors (cfg : RingConfig w V) (s : RingBuffer w V) (out : Option V) : List ℕ :=
  if s.count = 0 then []
  else
    let ((st, _), _) := extractSlot cfg s (s.slotAt s.tail) out
    if st ≠ .ok then [] else [s.capacity.toNat]

/-- The divisors of `pop_back`. -/
def popBackDivisors (cfg : RingConfig w V) (s : RingBuffer w V) (out : Option V) : List ℕ :=
  if s.count = 0 then []
  else
    s.capacity.toNat ::
      let s := { s with head := s.retreat s.head }
      let ((st, _), _) := extractSlot cfg s (s.slotAt s.head) out
      if st ≠ .ok then [s.capacity.toNat] else []

/-- The divisors of `reserve`. -/
def reserveDivisors (cfg : RingConfig w V) (s : RingBuffer w V) (minCapacity : BitVec w) :
    List ℕ :=
  if minCapacity ≤ s.capacity then []
  else if cfg.growable = false then []
  else relinearizeDivisors cfg s (growCapacity s.capacity minCapacity)

/-- The divisors of `commit_read`. -/
def commitReadDivisors (cfg : RingConfig w V) (s : RingBuffer w V) (elemCount : BitVec w) :
    List ℕ :=
  if elemCount = 0 ∨ s.count = 0 then []
  else
    let elemCount := if s.count < elemCount then s.count else elemCount
    destroyFirstDivisors cfg s elemCount.toNat ++ [s.capacity.toNat]

/-- The divisors of a call. -/
def divisors (cfg : RingConfig w V) (s : RingBuffer w V) : Call w V → List ℕ
  | .pushBack elem allowOverwrite => pushBackDivisors cfg s elem allowOverwrite
  | .pushFront elem => pushFrontDivisors cfg s elem
  | .popFront out => popFrontDivisors cfg s out
  | .popBack out => popBackDivisors cfg s out
  | .peekFront _ => []
  | .peekBack none => []
  | .peekBack (some _) => if s.count = 0 then [] else [s.capacity.toNat]
  | .peekAt _ none => []
  | .peekAt index (some _) => if s.count ≤ index then [] else [s.capacity.toNat]
  | .setAt _ none => []
  | .setAt index (some _) => if s.count ≤ index then [] else [s.capacity.toNat]
  | .reserve minCapacity => reserveDivisors cfg s minCapacity
  | .clear => if s.count = 0 then [] else destroyFirstDivisors cfg s s.count.toNat
  | .foreach visit => List.replicate (foreach s visit).2.length s.capacity.toNat
  | .commitRead elemCount => commitReadDivisors cfg s elemCount

/-- The divisors of `writable_contiguous`. -/
def writableContiguousDivisors (cfg : RingConfig w V) (s : RingBuffer w V) (hasOut : Bool) :
    List ℕ :=
  if hasOut = false then []
  else if s.capacity ≤ s.count then
    if cfg.growable = false then [] else ensureRoomDivisors cfg s
  else []

/-- The divisors of `commit_write`. -/
def commitWriteDivisors (s : RingBuffer w V) (elemCount : BitVec w) : List ℕ :=
  if elemCount = 0 then [] else [s.capacity.toNat]

variable {cfg : RingConfig w V} {s : RingBuffer w V}

/-! ## A buffer with a capacity -/

theorem toNat_capacity_ne (hcap : s.capacity ≠ 0) : s.capacity.toNat ≠ 0 := by
  intro hzero
  exact hcap (BitVec.eq_of_toNat_eq (by simpa using hzero))

/-- A capacity that grew is not zero. -/
theorem growCapacity_ne_zero {current required : BitVec w} (hcurrent : current ≠ 0) :
    growCapacity current required ≠ 0 := by
  intro hzero
  have hpos : 0 < current.toNat := by
    rw [Nat.pos_iff_ne_zero]
    exact fun h => hcurrent (BitVec.eq_of_toNat_eq (by simpa using h))
  have hgrown := toNat_growCapacity hpos required
  have hword : (0 : BitVec w).toNat = 0 := BitVec.toNat_zero
  rw [hzero, hword] at hgrown
  have hle := le_grownCapacity hpos (2 ^ w) required.toNat
  have hrequired : required.toNat = 0 := by omega
  have hleast := leastDoubling_of_le hpos (hrequired.trans_le (Nat.zero_le current.toNat))
  rw [grownCapacity, hleast, if_pos current.isLt] at hgrown
  omega

@[simp] theorem indices_destroySlot (cfg : RingConfig w V) (s : RingBuffer w V) (slot : ℕ × ℕ) :
    (destroySlot cfg s slot).toRingIndices = s.toRingIndices := by
  unfold destroySlot
  split <;> rfl

theorem indices_destroyFirst (cfg : RingConfig w V) (s : RingBuffer w V) (n : ℕ) :
    (destroyFirst cfg s n).toRingIndices = s.toRingIndices := by
  unfold destroyFirst
  induction List.range n generalizing s with
  | nil => rfl
  | cons i is ih => rw [List.foldl_cons, ih, indices_destroySlot]

theorem indices_extractSlot (cfg : RingConfig w V) (s : RingBuffer w V) (slot : ℕ × ℕ)
    (out : Option V) : (extractSlot cfg s slot out).2.toRingIndices = s.toRingIndices := by
  cases out with
  | none => exact indices_destroySlot cfg s slot
  | some out => rfl

/-- Relinearizing to a capacity that is not zero leaves one. -/
theorem capacity_relinearize {newCapacity : BitVec w} (hcap : s.capacity ≠ 0)
    (hnew : newCapacity ≠ 0) : (relinearize cfg s newCapacity).2.capacity ≠ 0 := by
  unfold relinearize
  dsimp only
  split
  · exact hcap
  · split
    · exact hcap
    · exact hnew

theorem capacity_ensureRoom (hcap : s.capacity ≠ 0) : (ensureRoom cfg s).2.capacity ≠ 0 := by
  unfold ensureRoom
  dsimp only
  split
  · exact hcap
  · split
    · exact hcap
    · split
      · exact hcap
      · exact capacity_relinearize hcap (growCapacity_ne_zero hcap)

theorem capacity_makeRoomBack (cfg : RingConfig w V) (hcap : s.capacity ≠ 0) (allowOverwrite : Bool) :
    (makeRoomBack cfg s allowOverwrite).2.capacity ≠ 0 := by
  unfold makeRoomBack
  split
  · split
    · exact capacity_ensureRoom hcap
    · split
      · show (destroySlot cfg s _).toRingIndices.capacity ≠ 0
        rwa [indices_destroySlot]
      · exact hcap
  · exact hcap

theorem capacity_makeRoomFront (cfg : RingConfig w V) (hcap : s.capacity ≠ 0) :
    (makeRoomFront cfg s).2.capacity ≠ 0 := by
  unfold makeRoomFront
  split
  · split
    · exact capacity_ensureRoom hcap
    · split
      · show (destroySlot cfg s _).toRingIndices.capacity ≠ 0
        rwa [indices_destroySlot]
      · exact hcap
  · exact hcap

/-- The operations leave a capacity that is not zero. -/
theorem capacity_call (hcap : s.capacity ≠ 0) (c : Call w V) : (call cfg s c).2.capacity ≠ 0 := by
  cases c with
  | pushBack elem allowOverwrite =>
    show (pushBack cfg s elem allowOverwrite).2.capacity ≠ 0
    cases elem with
    | none => exact hcap
    | some elem =>
      -- only making room can change the capacity: what follows writes the slot and the indices
      have hroom := capacity_makeRoomBack cfg hcap allowOverwrite
      unfold pushBack
      dsimp only
      split
      · exact hcap
      · split
        · exact hcap
        · split
          · exact hroom
          · split <;> exact hroom
  | pushFront elem =>
    show (pushFront cfg s elem).2.capacity ≠ 0
    cases elem with
    | none => exact hcap
    | some elem =>
      -- as at the back, only making room can change the capacity
      have hroom := capacity_makeRoomFront cfg hcap
      unfold pushFront
      dsimp only
      split
      · exact hroom
      · split <;> exact hroom
  | popFront out =>
    show (popFront cfg s out).2.capacity ≠ 0
    -- handing an element out touches the storage, never the indices
    have hextract := indices_extractSlot cfg s (s.slotAt s.tail) out
    unfold popFront
    dsimp only
    split
    · exact hcap
    · split <;> simpa [hextract] using hcap
  | popBack out =>
    show (popBack cfg s out).2.capacity ≠ 0
    have hextract := indices_extractSlot cfg { s with head := s.retreat s.head }
      (s.slotAt (s.retreat s.head)) out
    unfold popBack
    dsimp only
    split
    · exact hcap
    · split
      · exact (congrArg RingIndices.capacity hextract).trans_ne hcap
      · exact (congrArg RingIndices.capacity hextract).trans_ne hcap
  | peekFront out => exact hcap
  | peekBack out => exact hcap
  | peekAt index out => exact hcap
  | setAt index elem =>
    show (setAt cfg s index elem).2.capacity ≠ 0
    cases elem with
    | none => exact hcap
    | some elem =>
      unfold setAt
      dsimp only
      split <;> exact hcap
  | reserve minCapacity =>
    show (reserve cfg s minCapacity).2.capacity ≠ 0
    unfold reserve
    split
    · exact hcap
    · split
      · exact hcap
      · -- a grown capacity is at least the one before
        exact capacity_relinearize hcap (growCapacity_ne_zero hcap)
  | clear =>
    show (clear cfg s).capacity ≠ 0
    unfold clear
    split
    · exact hcap
    · show (destroyFirst cfg s _).toRingIndices.capacity ≠ 0
      rwa [indices_destroyFirst]
  | foreach visit => exact hcap
  | commitRead elemCount =>
    show (commitRead cfg s elemCount).capacity ≠ 0
    unfold commitRead
    dsimp only
    split
    · exact hcap
    · show (destroyFirst cfg s _).toRingIndices.capacity ≠ 0
      rwa [indices_destroyFirst]

/-- A buffer with a capacity grows without a division by zero. -/
theorem zero_notMem_relinearizeDivisors (cfg : RingConfig w V) (hcap : s.capacity ≠ 0)
    (newCapacity : BitVec w) : 0 ∉ relinearizeDivisors cfg s newCapacity := by
  unfold relinearizeDivisors
  split
  · exact List.not_mem_nil
  · split
    · exact List.not_mem_nil
    · intro hmem
      exact toNat_capacity_ne hcap (List.eq_of_mem_replicate hmem).symm

theorem zero_notMem_ensureRoomDivisors (cfg : RingConfig w V) (hcap : s.capacity ≠ 0) :
    0 ∉ ensureRoomDivisors cfg s := by
  unfold ensureRoomDivisors
  dsimp only
  split
  · exact List.not_mem_nil
  · split
    · exact List.not_mem_nil
    · split
      · exact List.not_mem_nil
      · exact zero_notMem_relinearizeDivisors cfg hcap _

theorem zero_notMem_destroyFirstDivisors (cfg : RingConfig w V) (hcap : s.capacity ≠ 0) (n : ℕ) :
    0 ∉ destroyFirstDivisors cfg s n := by
  unfold destroyFirstDivisors
  split
  · intro hmem
    exact toNat_capacity_ne hcap (List.eq_of_mem_replicate hmem).symm
  · exact List.not_mem_nil

/-- No operation divides a buffer's indices by zero while it has a capacity. -/
theorem zero_notMem_divisors (cfg : RingConfig w V) (hcap : s.capacity ≠ 0) (c : Call w V) :
    0 ∉ divisors cfg s c := by
  -- the two shapes the index arithmetic takes: one reduction, or none behind a test
  have hone : ∀ {t : RingBuffer w V}, t.capacity ≠ 0 → 0 ∉ [t.capacity.toNat] := by
    intro t ht
    simpa using (toNat_capacity_ne ht).symm
  have hguard : ∀ {t : RingBuffer w V} {p : Prop} [Decidable p], t.capacity ≠ 0 →
      0 ∉ (if p then [] else [t.capacity.toNat]) := by
    intro t p _ ht
    split
    · exact List.not_mem_nil
    · exact hone ht
  cases c with
  | pushBack elem allowOverwrite =>
    show 0 ∉ pushBackDivisors cfg s elem allowOverwrite
    cases elem with
    | none => exact List.not_mem_nil
    | some elem =>
      -- room is made first, so the head then advances by the capacity of the grown buffer
      have hroom := capacity_makeRoomBack cfg hcap allowOverwrite
      unfold pushBackDivisors makeRoomBackDivisors
      dsimp only
      split
      · exact List.not_mem_nil
      · split
        · exact List.not_mem_nil
        · rw [List.mem_append, not_or]
          constructor
          · split
            · split
              · exact zero_notMem_ensureRoomDivisors cfg hcap
              · split
                · exact hone hcap
                · exact List.not_mem_nil
            · exact List.not_mem_nil
          · split
            · exact List.not_mem_nil
            · exact hguard hroom
  | pushFront elem =>
    show 0 ∉ pushFrontDivisors cfg s elem
    cases elem with
    | none => exact List.not_mem_nil
    | some elem =>
      -- overwriting takes the last element: it is destroyed behind the head, which is then stepped
      -- back
      have hroom := capacity_makeRoomFront cfg hcap
      unfold pushFrontDivisors makeRoomFrontDivisors
      dsimp only
      -- making room divides by the old capacity, placing the element by the new one
      rw [List.mem_append, not_or]
      constructor
      · split
        · split
          · exact zero_notMem_ensureRoomDivisors cfg hcap
          · split
            · rw [List.mem_append, not_or]
              refine ⟨?_, hone hcap⟩
              split
              · exact hone hcap
              · exact List.not_mem_nil
            · exact List.not_mem_nil
        · exact List.not_mem_nil
      · split
        · exact List.not_mem_nil
        · -- the tail is stepped back before the copy, and a failing copy steps it forward again
          rw [List.mem_cons, not_or]
          refine ⟨(toNat_capacity_ne hroom).symm, ?_⟩
          split
          · exact hone hroom
          · exact List.not_mem_nil
  | popFront out =>
    show 0 ∉ popFrontDivisors cfg s out
    unfold popFrontDivisors
    dsimp only
    split
    · exact List.not_mem_nil
    · exact hguard hcap
  | popBack out =>
    show 0 ∉ popBackDivisors cfg s out
    unfold popBackDivisors
    dsimp only
    split
    · exact List.not_mem_nil
    · -- as for the head here
      rw [List.mem_cons, not_or]
      refine ⟨(toNat_capacity_ne hcap).symm, ?_⟩
      split
      · exact hone hcap
      · exact List.not_mem_nil
  | peekFront out => exact List.not_mem_nil
  | peekBack out =>
    cases out with
    | none => exact List.not_mem_nil
    | some out => exact hguard hcap
  | peekAt index out =>
    cases out with
    | none => exact List.not_mem_nil
    | some out => exact hguard hcap
  | setAt index elem =>
    cases elem with
    | none => exact List.not_mem_nil
    | some elem => exact hguard hcap
  | reserve minCapacity =>
    show 0 ∉ reserveDivisors cfg s minCapacity
    unfold reserveDivisors
    split
    · exact List.not_mem_nil
    · split
      · exact List.not_mem_nil
      · exact zero_notMem_relinearizeDivisors cfg hcap _
  | clear =>
    show 0 ∉ if s.count = 0 then [] else destroyFirstDivisors cfg s s.count.toNat
    split
    · exact List.not_mem_nil
    · exact zero_notMem_destroyFirstDivisors cfg hcap _
  | foreach visit =>
    intro hmem
    exact toNat_capacity_ne hcap (List.eq_of_mem_replicate hmem).symm
  | commitRead elemCount =>
    show 0 ∉ commitReadDivisors cfg s elemCount
    unfold commitReadDivisors
    dsimp only
    split
    · exact List.not_mem_nil
    · rw [List.mem_append, not_or]
      exact ⟨zero_notMem_destroyFirstDivisors cfg hcap _, hone hcap⟩

end RingBuffer

/-! ## A buffer without a capacity -/

/-- A `ring_buffer_core` object: what no operation changes, and the rest. -/
structure RingObject (w : ℕ) (V : Type*) where
  cfg : RingConfig w V
  ring : RingBuffer w V

namespace RingObject

/-- A public operation of the object. -/
inductive Call (w : ℕ) (V : Type*)
  | core (c : RingBuffer.Call w V)
  | readableContiguous (hasOut : Bool)
  | writableContiguous (hasOut : Bool)
  | commitWrite (elemCount : BitVec w)

/-- The object after a call. -/
def after (o : RingObject w V) : Call w V → RingObject w V
  | .core c => { o with ring := (RingBuffer.call o.cfg o.ring c).2 }
  | .readableContiguous _ => o
  | .writableContiguous hasOut =>
    { o with ring := (RingBuffer.writableContiguous o.cfg o.ring hasOut).2 }
  | .commitWrite elemCount => { o with ring := o.ring.commitWrite elemCount }

/-- The divisors of a call; `readable_contiguous` computes no remainder. -/
def divisors (o : RingObject w V) : Call w V → List ℕ
  | .core c => RingBuffer.divisors o.cfg o.ring c
  | .readableContiguous _ => []
  | .writableContiguous hasOut => RingBuffer.writableContiguousDivisors o.cfg o.ring hasOut
  | .commitWrite elemCount => o.ring.commitWriteDivisors elemCount

/-- `reset_state`, which also is what a default constructor leaves. Nothing reads the policy and the
allocator of a buffer without a capacity, and they are kept. -/
def resetState (o : RingObject w V) : RingObject w V where
  cfg := { o.cfg with growable := false, overwriteOnFull := false }
  ring := { o.ring with capacity := 0, head := 0, tail := 0, count := 0 }

/-- The objects that can be reached. An `init` that fails changes nothing, and what is moved away is
left as it was or reset. -/
inductive Reachable : RingObject w V → Prop
  | default (o : RingObject w V) : Reachable o.resetState
  | init (cfg : RingConfig w V) (memory : ℕ × ℕ → V) : Reachable ⟨cfg, .init cfg memory⟩
  | reset {o : RingObject w V} (ho : Reachable o) : Reachable o.resetState
  | call {o : RingObject w V} (ho : Reachable o) (c : Call w V) : Reachable (o.after c)

/-- No capacity, and neither elements nor flags. -/
structure Blank (o : RingObject w V) : Prop where
  capacity : o.ring.capacity = 0
  count : o.ring.count = 0
  growable : o.cfg.growable = false
  overwriteOnFull : o.cfg.overwriteOnFull = false

/-- The call is a `commit_write` of some elements. -/
def Call.Writes : Call w V → Prop
  | .commitWrite elemCount => elemCount ≠ 0
  | _ => False

variable {o : RingObject w V}

theorem blank_resetState (o : RingObject w V) : Blank o.resetState := ⟨rfl, rfl, rfl, rfl⟩

/-- The operations of the core refuse a blank buffer. -/
theorem Blank.call_eq (h : Blank o) (c : RingBuffer.Call w V) :
    (RingBuffer.call o.cfg o.ring c).2 = o.ring := by
  obtain ⟨hcap, hcount, hgrow, hover⟩ := h
  cases c with
  | pushBack elem allowOverwrite =>
    cases elem <;> simp [RingBuffer.call, RingBuffer.pushBack, hcap]
  | pushFront elem =>
    cases elem <;>
      simp [RingBuffer.call, RingBuffer.pushFront, RingBuffer.makeRoomFront, hcap, hcount, hgrow,
        hover]
  | popFront out => simp [RingBuffer.call, RingBuffer.popFront, hcount]
  | popBack out => simp [RingBuffer.call, RingBuffer.popBack, hcount]
  | peekFront out => rfl
  | peekBack out => rfl
  | peekAt index out => rfl
  | setAt index elem =>
    have hle : o.ring.count ≤ index := by
      rw [hcount, BitVec.le_def]
      exact BitVec.toNat_zero.trans_le (Nat.zero_le _)
    cases elem <;> simp [RingBuffer.call, RingBuffer.setAt, hle]
  | reserve minCapacity =>
    show (RingBuffer.reserve o.cfg o.ring minCapacity).2 = o.ring
    unfold RingBuffer.reserve
    rw [if_pos hgrow]
    split <;> rfl
  | clear => simp [RingBuffer.call, RingBuffer.clear, hcount]
  | foreach visit => rfl
  | commitRead elemCount => simp [RingBuffer.call, RingBuffer.commitRead, hcount]

/-- A blank buffer stays blank. -/
theorem Blank.after (h : Blank o) (c : Call w V) : Blank (o.after c) := by
  cases c with
  | core c =>
    have hsame := h.call_eq c
    simpa only [RingObject.after, hsame] using h
  | readableContiguous hasOut => exact h
  | writableContiguous hasOut =>
    have hsame : (RingBuffer.writableContiguous o.cfg o.ring hasOut).2 = o.ring := by
      simp [RingBuffer.writableContiguous, h.capacity, h.count, h.growable]
    simpa only [RingObject.after, hsame] using h
  | commitWrite elemCount =>
    -- no slot is free, so no element is added
    refine ⟨?_, ?_, h.growable, h.overwriteOnFull⟩
    · show (o.ring.commitWrite elemCount).capacity = 0
      unfold RingBuffer.commitWrite
      split <;> exact h.capacity
    · show (o.ring.commitWrite elemCount).count = 0
      unfold RingBuffer.commitWrite
      dsimp only
      split
      · exact h.count
      · rename_i hsome
        have hfree : o.ring.capacity - o.ring.count = 0 := by
          rw [h.capacity, h.count]
          simp
        have hpos : 0 < elemCount := by
          rw [BitVec.lt_def]
          refine BitVec.toNat_zero.trans_lt (Nat.pos_of_ne_zero fun hzero => hsome ?_)
          exact BitVec.eq_of_toNat_eq (by simpa using hzero)
        show o.ring.count + _ = 0
        rw [hfree, if_pos hpos, h.count]
        simp

/-- Only `commit_write` computes a remainder of a blank buffer. -/
theorem Blank.zero_mem_divisors_iff (h : Blank o) (c : Call w V) :
    0 ∈ o.divisors c ↔ c.Writes := by
  obtain ⟨hcap, hcount, hgrow, hover⟩ := h
  cases c with
  | core c =>
    refine iff_of_false ?_ id
    show 0 ∉ RingBuffer.divisors o.cfg o.ring c
    cases c with
    | pushBack elem allowOverwrite =>
      cases elem <;> simp [RingBuffer.divisors, RingBuffer.pushBackDivisors, hcap]
    | pushFront elem =>
      cases elem <;>
        simp [RingBuffer.divisors, RingBuffer.pushFrontDivisors, RingBuffer.makeRoomFrontDivisors,
          RingBuffer.makeRoomFront, hcap, hcount, hgrow, hover]
    | popFront out => simp [RingBuffer.divisors, RingBuffer.popFrontDivisors, hcount]
    | popBack out => simp [RingBuffer.divisors, RingBuffer.popBackDivisors, hcount]
    | peekFront out => exact List.not_mem_nil
    | peekBack out => cases out <;> simp [RingBuffer.divisors, hcount]
    | peekAt index out => cases out <;> simp [RingBuffer.divisors, hcount]
    | setAt index elem => cases elem <;> simp [RingBuffer.divisors, hcount]
    | reserve minCapacity =>
      show 0 ∉ RingBuffer.reserveDivisors o.cfg o.ring minCapacity
      unfold RingBuffer.reserveDivisors
      rw [if_pos hgrow]
      split <;> exact List.not_mem_nil
    | clear => simp [RingBuffer.divisors, hcount]
    | foreach visit =>
      simp [RingBuffer.divisors, RingBuffer.foreach, RingBuffer.elements, hcount, visitLoop]
    | commitRead elemCount => simp [RingBuffer.divisors, RingBuffer.commitReadDivisors, hcount]
  | readableContiguous hasOut => exact iff_of_false List.not_mem_nil id
  | writableContiguous hasOut =>
    refine iff_of_false ?_ id
    simp [divisors, RingBuffer.writableContiguousDivisors, hcap, hcount, hgrow]
  | commitWrite elemCount =>
    show 0 ∈ o.ring.commitWriteDivisors elemCount ↔ elemCount ≠ 0
    unfold RingBuffer.commitWriteDivisors
    by_cases hzero : elemCount = 0
    · simp [hzero]
    · simp [hcap]

/-- A buffer with a capacity keeps one. -/
theorem capacity_after (hcap : o.ring.capacity ≠ 0) (c : Call w V) :
    (o.after c).ring.capacity ≠ 0 := by
  cases c with
  | core c => exact RingBuffer.capacity_call hcap c
  | readableContiguous hasOut => exact hcap
  | writableContiguous hasOut =>
    have hgrown : (if o.ring.capacity ≤ o.ring.count then
        if o.cfg.growable = false then (Status.full, o.ring)
        else RingBuffer.ensureRoom o.cfg o.ring
      else (.ok, o.ring)).2.capacity ≠ 0 := by
      split
      · split
        · exact hcap
        · exact RingBuffer.capacity_ensureRoom hcap
      · exact hcap
    show (RingBuffer.writableContiguous o.cfg o.ring hasOut).2.capacity ≠ 0
    unfold RingBuffer.writableContiguous
    dsimp only
    generalize (if o.ring.capacity ≤ o.ring.count then
        if o.cfg.growable = false then (Status.full, o.ring)
        else RingBuffer.ensureRoom o.cfg o.ring
      else (.ok, o.ring)) = r at hgrown ⊢
    split
    · exact hcap
    · split <;> exact hgrown
  | commitWrite elemCount =>
    show (o.ring.commitWrite elemCount).capacity ≠ 0
    unfold RingBuffer.commitWrite
    split <;> exact hcap

/-- No operation divides by zero while there is a capacity. -/
theorem zero_notMem_divisors (hcap : o.ring.capacity ≠ 0) (c : Call w V) : 0 ∉ o.divisors c := by
  cases c with
  | core c => exact RingBuffer.zero_notMem_divisors o.cfg hcap c
  | readableContiguous hasOut => exact List.not_mem_nil
  | writableContiguous hasOut =>
    show 0 ∉ RingBuffer.writableContiguousDivisors o.cfg o.ring hasOut
    unfold RingBuffer.writableContiguousDivisors
    split
    · exact List.not_mem_nil
    · split
      · split
        · exact List.not_mem_nil
        · exact RingBuffer.zero_notMem_ensureRoomDivisors o.cfg hcap
      · exact List.not_mem_nil
  | commitWrite elemCount =>
    show 0 ∉ o.ring.commitWriteDivisors elemCount
    unfold RingBuffer.commitWriteDivisors
    split
    · exact List.not_mem_nil
    · simpa using (RingBuffer.toNat_capacity_ne hcap).symm

/-- **Every object is blank or has a capacity.** -/
theorem Reachable.blank_or_capacity (ho : Reachable o) : Blank o ∨ o.ring.capacity ≠ 0 := by
  induction ho with
  | default o => exact .inl (blank_resetState o)
  | init cfg memory =>
    refine .inr fun hzero => ?_
    have hpos := cfg.initialCapacity_pos
    have hcap : cfg.initialCapacity = 0 := hzero
    rw [hcap] at hpos
    simp at hpos
  | reset ho ih => exact .inl (blank_resetState _)
  | call ho c ih =>
    rcases ih with hblank | hcap
    · exact .inl (hblank.after c)
    · exact .inr (capacity_after hcap c)

/-- **A call divides by zero** exactly when it commits a write to a buffer without a capacity. -/
theorem Reachable.zero_mem_divisors_iff (ho : Reachable o) (c : Call w V) :
    0 ∈ o.divisors c ↔ o.ring.capacity = 0 ∧ c.Writes := by
  rcases ho.blank_or_capacity with hblank | hcap
  · rw [hblank.zero_mem_divisors_iff, and_iff_right hblank.capacity]
  · exact iff_of_false (zero_notMem_divisors hcap c) fun h => hcap h.1

end RingObject

/-! ## All containers -/

/-- **When no remainder is modulo zero.** An operation computes each of its remainders with a
divisor that is not zero exactly when: it is no `get`, `remove` or `contains` of a key in a hash map
without buckets, of either layout; it is no search for a key in an LRU cache without buckets; it is
no `commit_write` of some elements to a ring buffer without a capacity. -/
theorem no_division_by_zero_iff {K U : Type*} {o : RingObject w V} (ho : o.Reachable) :
    (∀ (cfg : ChainConfig w K U) (s : ChainMap w K U) (c : ChainMap.Call K U),
      0 ∉ ChainMap.divisors cfg s c ↔ ¬ (s.bucketCount = 0 ∧ c.Searches)) ∧
    (∀ (cfg : HashMapConfig w K U) (s : OpenMap w K U) (c : OpenMap.Call K U),
      0 ∉ OpenMap.divisors cfg s c ↔ ¬ (s.bucketCount = 0 ∧ c.Searches)) ∧
    (∀ (cfg : LruConfig w K U) (s : LruCache K U) (c : LruCache.Call K U),
      0 ∉ LruCache.divisors cfg s c ↔ ¬ (cfg.bucketCount = 0 ∧ c.Searches)) ∧
    (∀ c : RingObject.Call w V,
      0 ∉ o.divisors c ↔ ¬ (o.ring.capacity = 0 ∧ c.Writes)) := by
  refine ⟨?_, ?_, ?_, ?_⟩
  · intro cfg s c
    exact not_congr (ChainMap.zero_mem_divisors_iff c)
  · intro cfg s c
    exact not_congr (OpenMap.zero_mem_divisors_iff c)
  · intro cfg s c
    exact not_congr (LruCache.zero_mem_divisors_iff c)
  · intro c
    exact not_congr (ho.zero_mem_divisors_iff c)

/-- A fresh buffer with storage commits a write. -/
theorem no_division_by_zero_iff_pairRing :
    RingObject.Reachable ⟨RingBuffer.pairRing, .init RingBuffer.pairRing fun _ => 0⟩ ∧
      0 ∉ (⟨RingBuffer.pairRing, .init RingBuffer.pairRing fun _ => 0⟩ : RingObject 16 ℕ).divisors
        (.commitWrite 1) := by
  have ho := RingObject.Reachable.init RingBuffer.pairRing fun _ => 0
  obtain ⟨-, -, -, hring⟩ := no_division_by_zero_iff (K := ℕ) (U := ℕ) ho
  have hcap : RingBuffer.pairRing.initialCapacity ≠ 0 := by decide
  exact ⟨ho, (hring (.commitWrite 1)).mpr fun h => hcap h.1⟩

/-- Without an `init`, `get` on a hash map of either layout, `peek` on an LRU cache and
`commit_write` on a ring buffer divide by zero. -/
theorem not_no_division_by_zero :
    0 ∈ ChainMap.divisors ChainMap.octalMap
        (ChainMap.init ChainMap.octalMap (fun _ => none) (fun _ => 0) fun _ => 0).resetState
        (.get (some 1) (some 0)) ∧
    0 ∈ OpenMap.divisors (OpenMap.plainConfig true)
        (OpenMap.releaseStorage ⟨fun _ => ⟨.empty, 0, 0⟩, 4, 0, 0, 0⟩) (.get (some 1) (some 0)) ∧
    0 ∈ LruCache.divisors (LruCache.resetCounters LruCache.plainConfig)
        ⟨⟨none, none, fun _ => none, fun _ => none⟩, ⟨fun _ => none, none, fun _ => none⟩,
          fun _ => 0, fun _ => 0, 0, 0⟩ (.peek (some 1) (some 0)) ∧
    0 ∈ (⟨RingBuffer.pairRing, .init RingBuffer.pairRing fun _ => 0⟩ :
        RingObject 16 ℕ).resetState.divisors (.commitWrite 1) := by
  refine ⟨?_, ?_, ?_, ?_⟩
  · decide
  · decide
  · decide
  · decide

end Memkit
