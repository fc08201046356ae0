import Memkit.Core.Answer
import Memkit.Core.ElementCells
import Memkit.Core.GrowCapacity
import Memkit.Foundations.Transition

/-! # The ring buffer

`detail/ring_buffer_core.hpp` with `runtime_element_policy`. The elements lie in a block of memory,
and growth moves them to a new block; a slot is named by the number of its block and its index
there. Indices and counters are machine words.

* **`RingConfig`** — the policy, the flags, the allocator and the block given to `init`.
* **`RingIndices`** — `storage_` and the counters.
* **`RingBuffer`** — these with the elements. -/

namespace Memkit

variable {w : ℕ} {V : Type*}

/-- The members of `ring_buffer_core` that no operation changes, and the arguments of `init`. -/
structure RingConfig (w : ℕ) (V : Type*) where
  /-- `policy_`. -/
  policy : ElementPolicy V
  /-- `policy_.needs_destroy_on_clear()`. -/
  needsDestroy : Bool
  /-- `policy_.elem_size()`. -/
  elemSize : BitVec w
  /-- Whether `buffer_flags_` has the `growable` bit. -/
  growable : Bool
  /-- Whether `buffer_flags_` has the `overwrite_on_full` bit. -/
  overwriteOnFull : Bool
  /-- What `malloc` or `grow_alloc_.allocate` answers to the `n`-th request, for this many bytes. -/
  allocate : ℕ → BitVec w → Status
  /-- The capacity of the storage given to `init`. -/
  initialCapacity : BitVec w
  elemSize_pos : 0 < elemSize.toNat
  initialCapacity_pos : 0 < initialCapacity.toNat
  /-- A block of memory has at most `PTRDIFF_MAX` bytes: the storage given to `init`, -/
  storage_real : initialCapacity.toNat * elemSize.toNat < 2 ^ (w - 1)
  /-- and what the allocator grants. -/
  allocate_real : ∀ n bytes, allocate n bytes = .ok → bytes.toNat < 2 ^ (w - 1)

/-- `storage_` and the counters of `ring_buffer_core`. -/
structure RingIndices (w : ℕ) where
  /-- The number of the block in `storage_`. -/
  block : ℕ
  /-- `capacity_`. -/
  capacity : BitVec w
  /-- `head_`. -/
  head : BitVec w
  /-- `tail_`. -/
  tail : BitVec w
  /-- `count_`. -/
  count : BitVec w

namespace RingIndices

/-- `logical_index`. -/
def logicalIndex (s : RingIndices w) (logical : BitVec w) : BitVec w :=
  (s.tail + logical) % s.capacity

/-- `advance`. -/
def advance (s : RingIndices w) (index delta : BitVec w) : BitVec w := (index + delta) % s.capacity

/-- `(index + capacity_ - 1u) % capacity_`. -/
def retreat (s : RingIndices w) (index : BitVec w) : BitVec w := (index + s.capacity - 1) % s.capacity

/-- `slot_at`. -/
def slotAt (s : RingIndices w) (physicalIndex : BitVec w) : ℕ × ℕ := (s.block, physicalIndex.toNat)

end RingIndices

/-- The members of `ring_buffer_core` that the operations change, and the elements. -/
structure RingBuffer (w : ℕ) (V : Type*) extends RingIndices w where
  cells : Cells (ℕ × ℕ) V
  /-- Allocations requested so far. -/
  allocs : ℕ

namespace RingBuffer

/-- `if (policy_.needs_destroy_on_clear()) policy_.destroy(..)` on a slot. -/
def destroySlot (cfg : RingConfig w V) (s : RingBuffer w V) (slot : ℕ × ℕ) : RingBuffer w V :=
  if cfg.needsDestroy then { s with cells := s.cells.destroy cfg.policy slot } else s

/-- The loops of `clear` and `commit_read` that destroy the first elements. -/
def destroyFirst (cfg : RingConfig w V) (s : RingBuffer w V) (elemCount : ℕ) : RingBuffer w V :=
  (List.range elemCount).foldl
    (fun s i => destroySlot cfg s (s.slotAt (s.logicalIndex (BitVec.ofNat w i)))) s

/-- `clear`. -/
def clear (cfg : RingConfig w V) (s : RingBuffer w V) : RingBuffer w V :=
  if s.count = 0 then s
  else { destroyFirst cfg s s.count.toNat with head := 0, tail := 0, count := 0 }

/-- One round of the loop of `relinearize`. -/
def moveElem (s : RingBuffer w V) (newBlock : ℕ) (cells : Cells (ℕ × ℕ) V) (i : ℕ) :
    Cells (ℕ × ℕ) V :=
  cells.memcpy (newBlock, i) (s.slotAt (s.logicalIndex (BitVec.ofNat w i)))

/-- `relinearize`. The `n`-th block allocated has the number `n`. -/
def relinearize (cfg : RingConfig w V) (s : RingBuffer w V) (newCapacity : BitVec w) :
    Status × RingBuffer w V :=
  if newCapacity < s.count then (.invalid, s)
  else
    let st := cfg.allocate s.allocs (newCapacity * cfg.elemSize)
    let s := { s with allocs := s.allocs + 1 }
    if st ≠ .ok then (st, s)
    else
      (.ok,
        { s with
          cells := (List.range s.count.toNat).foldl (moveElem s s.allocs) s.cells
          block := s.allocs
          capacity := newCapacity
          head := s.count
          tail := 0 })

/-- `ensure_room`. -/
def ensureRoom (cfg : RingConfig w V) (s : RingBuffer w V) : Status × RingBuffer w V :=
  if s.count < s.capacity then (.ok, s)
  else if cfg.growable = false then (.full, s)
  else
    let newCapacity := growCapacity s.capacity (s.count + 1)
    if newCapacity ≤ s.capacity then (.full, s) else relinearize cfg s newCapacity

/-- What `push_back` does if the buffer is full: grow, or overwrite the first element. -/
def makeRoomBack (cfg : RingConfig w V) (s : RingBuffer w V) (allowOverwrite : Bool) :
    Status × RingBuffer w V :=
  if s.capacity ≤ s.count then
    if cfg.growable then ensureRoom cfg s
    else if allowOverwrite || cfg.overwriteOnFull then
      let s := destroySlot cfg s (s.slotAt s.tail)
      (.ok, { s with tail := s.advance s.tail 1, count := s.count - 1 })
    else (.full, s)
  else (.ok, s)

/-- `push_back`; `none` is a null pointer. -/
def pushBack (cfg : RingConfig w V) (s : RingBuffer w V) (elem : Option V)
    (allowOverwrite : Bool) : Status × RingBuffer w V :=
  match elem with
  | none => (.nullPtr, s)
  | some elem =>
    if s.capacity = 0 then (.invalid, s)
    else if s.count = s.capacity ∧ cfg.growable = false ∧ allowOverwrite = false ∧
        cfg.overwriteOnFull = false then
      (.full, s)
    else
      let (roomSt, s) := makeRoomBack cfg s allowOverwrite
      if roomSt ≠ .ok then (roomSt, s)
      else
        let (copySt, cells) := s.cells.copyConstruct cfg.policy (s.slotAt s.head) elem
        let s := { s with cells := cells }
        if copySt ≠ .ok then (copySt, s)
        else (.ok, { s with head := s.advance s.head 1, count := s.count + 1 })

/-- What `push_front` does if the buffer is full: grow, or overwrite the last element. -/
def makeRoomFront (cfg : RingConfig w V) (s : RingBuffer w V) : Status × RingBuffer w V :=
  if s.capacity ≤ s.count then
    if cfg.growable then ensureRoom cfg s
    else if cfg.overwriteOnFull then
      let s := destroySlot cfg s (s.slotAt (s.retreat s.head))
      (.ok, { s with head := s.retreat s.head, count := s.count - 1 })
    else (.full, s)
  else (.ok, s)

/-- `push_front`. -/
def pushFront (cfg : RingConfig w V) (s : RingBuffer w V) (elem : Option V) :
    Status × RingBuffer w V :=
  match elem with
  | none => (.nullPtr, s)
  | some elem =>
    let (roomSt, s) := makeRoomFront cfg s
    if roomSt ≠ .ok then (roomSt, s)
    else
      let s := { s with tail := s.retreat s.tail }
      let (copySt, cells) := s.cells.copyConstruct cfg.policy (s.slotAt s.tail) elem
      let s := { s with cells := cells }
      if copySt ≠ .ok then (copySt, { s with tail := s.advance s.tail 1 })
      else (.ok, { s with count := s.count + 1 })

/-- `extract_slot`; `out` is what `out_elem` points to. -/
def extractSlot (cfg : RingConfig w V) (s : RingBuffer w V) (slot : ℕ × ℕ) (out : Option V) :
    (Status × Option V) × RingBuffer w V :=
  match out with
  | some out =>
    let ((copySt, out), cells) := s.cells.copyOut cfg.policy slot out
    ((copySt, some out), { s with cells := cells })
  | none => ((.ok, none), destroySlot cfg s slot)

/-- `pop_front`. -/
def popFront (cfg : RingConfig w V) (s : RingBuffer w V) (out : Option V) :
    (Status × Option V) × RingBuffer w V :=
  if s.count = 0 then ((.empty, out), s)
  else
    let ((st, out), s) := extractSlot cfg s (s.slotAt s.tail) out
    if st ≠ .ok then ((st, out), s)
    else ((.ok, out), { s with tail := s.advance s.tail 1, count := s.count - 1 })

/-- `pop_back`. -/
def popBack (cfg : RingConfig w V) (s : RingBuffer w V) (out : Option V) :
    (Status × Option V) × RingBuffer w V :=
  if s.count = 0 then ((.empty, out), s)
  else
    let s := { s with head := s.retreat s.head }
    let ((st, out), s) := extractSlot cfg s (s.slotAt s.head) out
    if st ≠ .ok then ((st, out), { s with head := s.advance s.head 1 })
    else ((.ok, out), { s with count := s.count - 1 })

/-- `peek_front`. -/
def peekFront (s : RingBuffer w V) (out : Option V) : Status × Option V :=
  match out with
  | none => (.nullPtr, none)
  | some out =>
    if s.count = 0 then (.empty, some out) else (.ok, some (s.cells.contents (s.slotAt s.tail)))

/-- `peek_back`. -/
def peekBack (s : RingBuffer w V) (out : Option V) : Status × Option V :=
  match out with
  | none => (.nullPtr, none)
  | some out =>
    if s.count = 0 then (.empty, some out)
    else (.ok, some (s.cells.contents (s.slotAt (s.retreat s.head))))

/-- `peek_at`. -/
def peekAt (s : RingBuffer w V) (index : BitVec w) (out : Option V) : Status × Option V :=
  match out with
  | none => (.nullPtr, none)
  | some out =>
    if s.count ≤ index then (.invalid, some out)
    else (.ok, some (s.cells.contents (s.slotAt (s.logicalIndex index))))

/-- `set_at`. -/
def setAt (cfg : RingConfig w V) (s : RingBuffer w V) (index : BitVec w) (elem : Option V) :
    Status × RingBuffer w V :=
  match elem with
  | none => (.nullPtr, s)
  | some elem =>
    if s.count ≤ index then (.invalid, s)
    else
      let (copySt, cells) :=
        s.cells.copyConstruct cfg.policy (s.slotAt (s.logicalIndex index)) elem
      (copySt, { s with cells := cells })

/-- `reserve`. -/
def reserve (cfg : RingConfig w V) (s : RingBuffer w V) (minCapacity : BitVec w) :
    Status × RingBuffer w V :=
  if minCapacity ≤ s.capacity then (.ok, s)
  else if cfg.growable = false then (.full, s)
  else relinearize cfg s (growCapacity s.capacity minCapacity)

/-- The elements that the loop of `foreach` meets, with their indices. -/
def elements (s : RingBuffer w V) : List (V × ℕ) :=
  (List.range s.count.toNat).map fun i =>
    (s.cells.contents (s.slotAt (s.logicalIndex (BitVec.ofNat w i))), i)

/-- `foreach`. -/
def foreach (s : RingBuffer w V) (visit : List (V × ℕ) → Status) : Status × List (V × ℕ) :=
  visitLoop visit [] s.elements

/-- `commit_read`. -/
def commitRead (cfg : RingConfig w V) (s : RingBuffer w V) (elemCount : BitVec w) :
    RingBuffer w V :=
  if elemCount = 0 ∨ s.count = 0 then s
  else
    let elemCount := if s.count < elemCount then s.count else elemCount
    let s := destroyFirst cfg s elemCount.toNat
    { s with tail := s.advance s.tail elemCount, count := s.count - elemCount }

/-- `readable_contiguous`: what it writes to `out_ptr`, and the number of elements from there on;
`hasOut` says that `out_ptr` is not null. -/
def readableContiguous (s : RingBuffer w V) (hasOut : Bool) : Option (ℕ × ℕ) × BitVec w :=
  if s.count = 0 ∨ hasOut = false then (none, 0)
  else
    (some (s.slotAt s.tail), if s.tail < s.head then s.head - s.tail else s.count)

/-- `writable_contiguous`. -/
def writableContiguous (cfg : RingConfig w V) (s : RingBuffer w V) (hasOut : Bool) :
    (Option (ℕ × ℕ) × BitVec w) × RingBuffer w V :=
  if hasOut = false then ((none, 0), s)
  else
    let (growSt, s) :=
      if s.capacity ≤ s.count then
        if cfg.growable = false then (.full, s) else ensureRoom cfg s
      else (.ok, s)
    if growSt ≠ .ok then ((none, 0), s)
    else
      ((some (s.slotAt s.head),
        if s.tail ≤ s.head then s.capacity - s.count else s.head - s.tail), s)

/-- `commit_write`. -/
def commitWrite (s : RingBuffer w V) (elemCount : BitVec w) : RingBuffer w V :=
  if elemCount = 0 then s
  else
    let freeSlots := s.capacity - s.count
    let elemCount := if freeSlots < elemCount then freeSlots else elemCount
    { s with head := s.advance s.head elemCount, count := s.count + elemCount }

/-- The buffer after `init` over storage with any contents. -/
def init (cfg : RingConfig w V) (memory : ℕ × ℕ → V) : RingBuffer w V where
  block := 0
  capacity := cfg.initialCapacity
  head := 0
  tail := 0
  count := 0
  cells := .start memory
  allocs := 0

/-- A call of the interface. -/
inductive Call (w : ℕ) (V : Type*)
  | pushBack (elem : Option V) (allowOverwrite : Bool)
  | pushFront (elem : Option V)
  | popFront (out : Option V)
  | popBack (out : Option V)
  | peekFront (out : Option V)
  | peekBack (out : Option V)
  | peekAt (index : BitVec w) (out : Option V)
  | setAt (index : BitVec w) (elem : Option V)
  | reserve (minCapacity : BitVec w)
  | clear
  /-- The visitor answers by what it has seen. -/
  | foreach (visit : List (V × ℕ) → Status)
  | commitRead (elemCount : BitVec w)

/-- Dispatch a call. -/
def call (cfg : RingConfig w V) (s : RingBuffer w V) : Call w V → Answer V × RingBuffer w V
  | .pushBack elem allowOverwrite =>
    let (st, s) := pushBack cfg s elem allowOverwrite
    (.status st, s)
  | .pushFront elem =>
    let (st, s) := pushFront cfg s elem
    (.status st, s)
  | .popFront out =>
    let (result, s) := popFront cfg s out
    (.ofOut result, s)
  | .popBack out =>
    let (result, s) := popBack cfg s out
    (.ofOut result, s)
  | .peekFront out => (.ofOut (peekFront s out), s)
  | .peekBack out => (.ofOut (peekBack s out), s)
  | .peekAt index out => (.ofOut (peekAt s index out), s)
  | .setAt index elem =>
    let (st, s) := setAt cfg s index elem
    (.status st, s)
  | .reserve minCapacity =>
    let (st, s) := reserve cfg s minCapacity
    (.status st, s)
  | .clear => (.done, clear cfg s)
  | .foreach visit => (.ofVisits (foreach s visit), s)
  | .commitRead elemCount => (.done, commitRead cfg s elemCount)

end RingBuffer

end Memkit
