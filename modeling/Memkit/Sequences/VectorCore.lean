import Memkit.Core.Answer
import Memkit.Core.ElementCells
import Memkit.Core.GrowCapacity
import Memkit.Foundations.Transition

/-! # The vector

`detail/vector_core.hpp` and the class `Vector` of `containers/vector.hpp`. A vector does not contain
its storage: it points to a block of the caller, of an arena or of the heap, so the operations act on
the members of one object and on the memory that all objects share.

* **`BlockPtr`** — a pointer to a block of storage; an element is named by its block and its index.
* **`VectorMemory`** — the elements, and a ledger of the blocks of the heap: a block begins with
  `std::malloc` and ends with `std::free`, and both calls of `std::realloc` are entered.
* **`VectorCore`** — the members of `vector_core`.
* **`VectorObject`** — those of `Vector`; `arena_` may be the context of the grow allocator of another
  object, so the addresses of objects are arguments. -/

namespace Memkit

variable {w : ℕ} {V : Type*}

/-- A pointer to storage. -/
inductive BlockPtr
  | null
  /-- A block of the caller. -/
  | given (number : ℕ)
  /-- A block of an arena. -/
  | arena (number : ℕ)
  /-- What the heap returned to the request with this number. -/
  | heap (request : ℕ)
  deriving DecidableEq, Repr

/-- `linear_storage_kind`. -/
structure StorageKind where
  owns : Bool
  arena : Bool
  heap : Bool
  deriving DecidableEq, Repr

namespace StorageKind

/-- `external`. -/
def external : StorageKind := ⟨false, false, false⟩

/-- `owns | arena`. -/
def ownsArena : StorageKind := ⟨true, true, false⟩

/-- `owns | heap`. -/
def ownsHeap : StorageKind := ⟨true, false, true⟩

end StorageKind

/-- The policy of a vector, and what the allocators answer. -/
structure VectorConfig (w : ℕ) (V : Type*) where
  /-- `policy_`. -/
  policy : ElementPolicy V
  /-- Whether `Policy` is `typed_element_policy` and not `runtime_element_policy`. -/
  typed : Bool
  /-- `policy_.needs_destroy_on_clear()`. -/
  needsDestroy : Bool
  /-- `policy_.elem_size()`. -/
  elemSize : BitVec w
  /-- `MEMKIT_ALLOW_HEAP`. -/
  allowHeap : Bool
  /-- Whether the heap grants the `n`-th request, which is for this many bytes. -/
  grants : ℕ → BitVec w → Bool
  /-- What an arena answers to the `n`-th request: a status, or the number of a block. -/
  arenaAllocate : ℕ → ℕ → BitVec w → Except Status ℕ
  /-- An arena that answers ok provides a block. -/
  arena_refuses : ∀ arena n bytes st, arenaAllocate arena n bytes = .error st → st ≠ .ok

/-- The memory: the elements, the blocks of the heap, and the number of allocations requested. -/
structure VectorMemory (V : Type*) where
  cells : Cells (BlockPtr × ℕ) V
  heap : Ledger BlockPtr
  requests : ℕ

namespace VectorMemory

/-- Memory with any contents and no blocks of the heap. -/
def start (memory : BlockPtr × ℕ → V) : VectorMemory V := ⟨.start memory, .empty BlockPtr, 0⟩

/-- `std::malloc`. -/
def malloc (cfg : VectorConfig w V) (m : VectorMemory V) (bytes : BitVec w) :
    BlockPtr × VectorMemory V :=
  if cfg.grants m.requests bytes then
    (.heap m.requests,
      { m with heap := m.heap.construct (.heap m.requests) true, requests := m.requests + 1 })
  else (.null, { m with requests := m.requests + 1 })

/-- `std::realloc`; the contents of the block follow in `VectorCore.reallocate`. -/
def realloc (cfg : VectorConfig w V) (m : VectorMemory V) (ptr : BlockPtr) (bytes : BitVec w) :
    BlockPtr × VectorMemory V :=
  if cfg.grants m.requests bytes then
    (.heap m.requests,
      { m with
        heap := (m.heap.destroy ptr).construct (.heap m.requests) true
        requests := m.requests + 1 })
  else (.null, { m with heap := m.heap.access ptr, requests := m.requests + 1 })

/-- `std::free`. -/
def free (m : VectorMemory V) (ptr : BlockPtr) : VectorMemory V :=
  { m with heap := m.heap.destroy ptr }

/-- `allocate` of an arena. -/
def allocate (cfg : VectorConfig w V) (m : VectorMemory V) (arena : ℕ) (bytes : BitVec w) :
    Except Status BlockPtr × VectorMemory V :=
  ((cfg.arenaAllocate arena m.requests bytes).map .arena, { m with requests := m.requests + 1 })

end VectorMemory

/-- The members of `vector_core`. -/
structure VectorCore (w : ℕ) where
  /-- `storage_`. -/
  storage : BlockPtr
  /-- `capacity_`. -/
  capacity : BitVec w
  /-- `size_`. -/
  size : BitVec w
  /-- Whether `grow_flags_` has the `growable` bit. -/
  growable : Bool
  /-- `storage_kind_`. -/
  storageKind : StorageKind
  /-- `grow_alloc_`: the address of the object whose `arena_` is `ctx`, if `allocate` is not null. -/
  growAlloc : Option ℕ
  deriving DecidableEq, Repr

namespace VectorCore

/-- `vector_core() = default`. -/
def default (w : ℕ) : VectorCore w := ⟨.null, 0, 0, false, .external, none⟩

/-- `init`, which leaves the storage kind and the grow allocator as they are. -/
def init (cfg : VectorConfig w V) (s : VectorCore w) (storage : BlockPtr) (capacity : BitVec w)
    (growable : Bool) : Status × VectorCore w :=
  if storage = .null ∨ capacity = 0 ∨ cfg.elemSize = 0 then (.invalid, s)
  else (.ok, { s with storage := storage, capacity := capacity, size := 0, growable := growable })

/-- `slot_at`. -/
def slotAt (s : VectorCore w) (index : ℕ) : BlockPtr × ℕ := (s.storage, index)

/-- `if (policy_.needs_destroy_on_clear()) policy_.destroy(slot)`. -/
def destroySlot (cfg : VectorConfig w V) (cells : Cells (BlockPtr × ℕ) V) (slot : BlockPtr × ℕ) :
    Cells (BlockPtr × ℕ) V :=
  if cfg.needsDestroy then cells.destroy cfg.policy slot else cells

/-- `clear`. -/
def clear (cfg : VectorConfig w V) (s : VectorCore w) (m : VectorMemory V) :
    VectorCore w × VectorMemory V :=
  if s.size = 0 then (s, m)
  else
    ({ s with size := 0 },
      { m with
        cells := (List.range s.size.toNat).foldl (fun c i => destroySlot cfg c (s.slotAt i)) m.cells })

/-- `copy_construct` of the policy. A typed policy constructs a copy and has no status. -/
def construct (cfg : VectorConfig w V) (cells : Cells (BlockPtr × ℕ) V) (dst : BlockPtr × ℕ)
    (src : V) : Status × Cells (BlockPtr × ℕ) V :=
  if cfg.typed then (.ok, cells.place dst src) else cells.copyConstruct cfg.policy dst src

/-- `move_construct` followed by `destroy` of the source: the element moves. -/
def moveElem (cfg : VectorConfig w V) (cells : Cells (BlockPtr × ℕ) V) (dst src : BlockPtr × ℕ) :
    Cells (BlockPtr × ℕ) V :=
  let cells := cells.memcpy dst src
  if cfg.needsDestroy then cells.write src (cfg.policy.destroy (cells.contents src)) else cells

/-- The loop of `copy_range`, for the indices that remain. -/
def copyRange (cfg : VectorConfig w V) (dst src : BlockPtr) :
    List ℕ → Cells (BlockPtr × ℕ) V → Status × Cells (BlockPtr × ℕ) V
  | [], cells => (.ok, cells)
  | i :: is, cells =>
    if cfg.typed then copyRange cfg dst src is (moveElem cfg cells (dst, i) (src, i))
    else
      let (st, cells) := cells.copyConstruct cfg.policy (dst, i) (cells.contents (src, i))
      if st ≠ .ok then (st, cells) else copyRange cfg dst src is cells

/-- What `reallocate` does if the storage is of the heap. -/
def reallocHeap (cfg : VectorConfig w V) (s : VectorCore w) (m : VectorMemory V)
    (newCapacity : BitVec w) : Status × VectorCore w × VectorMemory V :=
  let bytes := newCapacity * cfg.elemSize
  let (newPtr, m) := if s.storage ≠ .null then m.realloc cfg s.storage bytes else m.malloc cfg bytes
  if newPtr = .null then (.oom, s, m)
  else
    -- the bytes of the elements are now in the new block
    let cells := (List.range s.size.toNat).foldl
      (fun c i => c.memcpy (newPtr, i) (s.slotAt i)) m.cells
    (.ok, { s with storage := newPtr, capacity := newCapacity }, { m with cells := cells })

/-- How `reallocate` obtains a block otherwise, and the storage kind after it. `arenaAt` says what
the `arena_` at an address is bound to. -/
def obtain (cfg : VectorConfig w V) (arenaAt : ℕ → Option ℕ) (s : VectorCore w)
    (m : VectorMemory V) (bytes : BitVec w) :
    Except Status (BlockPtr × StorageKind) × VectorMemory V :=
  match s.growAlloc with
  | some ctx =>
    match arenaAt ctx with
    | none => (.error .invalid, m)
    | some arena =>
      let (result, m) := m.allocate cfg arena bytes
      (result.map fun ptr => (ptr, s.storageKind), m)
  | none =>
    if cfg.allowHeap then
      let (newPtr, m) := m.malloc cfg bytes
      if newPtr = .null then (.error .oom, m) else (.ok (newPtr, .ownsHeap), m)
    else (.error .unsupported, m)

/-- What `reallocate` does with the block obtained: it copies the elements there, and frees the old
storage if the storage kind is now that of the heap. -/
def adopt (cfg : VectorConfig w V) (s : VectorCore w) (m : VectorMemory V) (newPtr : BlockPtr)
    (newCapacity : BitVec w) : Status × VectorCore w × VectorMemory V :=
  let (copySt, cells) :=
    if 0 < s.size ∧ s.storage ≠ .null ∧ newPtr ≠ s.storage then
      copyRange cfg newPtr s.storage (List.range s.size.toNat) m.cells
    else (.ok, m.cells)
  let m := { m with cells := cells }
  if copySt ≠ .ok then (copySt, s, m)
  else
    (.ok, { s with storage := newPtr, capacity := newCapacity },
      if (cfg.allowHeap && s.storageKind.heap) ∧ s.storage ≠ .null ∧ newPtr ≠ s.storage then
        m.free s.storage
      else m)

/-- `reallocate`. -/
def reallocate (cfg : VectorConfig w V) (arenaAt : ℕ → Option ℕ) (s : VectorCore w)
    (m : VectorMemory V) (newCapacity : BitVec w) : Status × VectorCore w × VectorMemory V :=
  if newCapacity < s.size then (.invalid, s, m)
  else if cfg.allowHeap && s.storageKind.heap then reallocHeap cfg s m newCapacity
  else
    match obtain cfg arenaAt s m (newCapacity * cfg.elemSize) with
    | (.error st, m) => (st, s, m)
    | (.ok (newPtr, kind), m) => adopt cfg { s with storageKind := kind } m newPtr newCapacity

/-- `grow`. -/
def grow (cfg : VectorConfig w V) (arenaAt : ℕ → Option ℕ) (s : VectorCore w)
    (m : VectorMemory V) (minCapacity : BitVec w) : Status × VectorCore w × VectorMemory V :=
  if s.growable = false then (.full, s, m)
  else
    let newCapacity := growCapacity s.capacity minCapacity
    if newCapacity < minCapacity then (.oom, s, m) else reallocate cfg arenaAt s m newCapacity

/-- `reserve`. -/
def reserve (cfg : VectorConfig w V) (arenaAt : ℕ → Option ℕ) (s : VectorCore w)
    (m : VectorMemory V) (minCapacity : BitVec w) : Status × VectorCore w × VectorMemory V :=
  if minCapacity ≤ s.capacity then (.ok, s, m)
  else if s.growable = false then (.full, s, m)
  else grow cfg arenaAt s m minCapacity

/-- `push_back`; `none` is a null pointer. -/
def pushBack (cfg : VectorConfig w V) (arenaAt : ℕ → Option ℕ) (s : VectorCore w)
    (m : VectorMemory V) (elem : Option V) : Status × VectorCore w × VectorMemory V :=
  match elem with
  | none => (.nullPtr, s, m)
  | some elem =>
    let (growSt, s, m) :=
      if s.size = s.capacity then grow cfg arenaAt s m (s.size + 1) else (.ok, s, m)
    if growSt ≠ .ok then (growSt, s, m)
    else
      let (copySt, cells) := construct cfg m.cells (s.slotAt s.size.toNat) elem
      let m := { m with cells := cells }
      if copySt ≠ .ok then (copySt, s, m) else (.ok, { s with size := s.size + 1 }, m)

/-- `pop_back`; `out` is what `out_elem` points to. -/
def popBack (cfg : VectorConfig w V) (s : VectorCore w) (m : VectorMemory V) (out : Option V) :
    (Status × Option V) × VectorCore w × VectorMemory V :=
  if s.size = 0 then ((.empty, out), s, m)
  else
    let s := { s with size := s.size - 1 }
    let slot := s.slotAt s.size.toNat
    match out with
    | some out =>
      if cfg.typed then
        ((.ok, some (m.cells.contents slot)), s, { m with cells := destroySlot cfg m.cells slot })
      else
        let ((copySt, out), cells) := m.cells.copyOut cfg.policy slot out
        let m := { m with cells := cells }
        if copySt ≠ .ok then ((copySt, some out), { s with size := s.size + 1 }, m)
        else ((.ok, some out), s, m)
    | none => ((.ok, none), s, { m with cells := destroySlot cfg m.cells slot })

/-- `set_at`. -/
def setAt (cfg : VectorConfig w V) (s : VectorCore w) (m : VectorMemory V) (index : BitVec w)
    (elem : Option V) : Status × VectorMemory V :=
  match elem with
  | none => (.nullPtr, m)
  | some elem =>
    if s.size ≤ index then (.invalid, m)
    else if cfg.typed then (.ok, { m with cells := m.cells.write (s.slotAt index.toNat) elem })
    else
      let (st, cells) := m.cells.copyConstruct cfg.policy (s.slotAt index.toNat) elem
      (st, { m with cells := cells })

/-- `peek_at`; `out` is what `out_elem` points to. -/
def peekAt (s : VectorCore w) (m : VectorMemory V) (index : BitVec w) (out : Option V) :
    Status × Option V :=
  match out with
  | none => (.nullPtr, none)
  | some out =>
    if s.size ≤ index then (.invalid, some out)
    else (.ok, some (m.cells.contents (s.slotAt index.toNat)))

/-- `peek_front`. -/
def peekFront (s : VectorCore w) (m : VectorMemory V) (out : Option V) : Status × Option V :=
  peekAt s m 0 out

/-- `peek_back`. -/
def peekBack (s : VectorCore w) (m : VectorMemory V) (out : Option V) : Status × Option V :=
  match out with
  | none => (.nullPtr, none)
  | some out =>
    if s.size = 0 then (.empty, some out)
    else (.ok, some (m.cells.contents (s.slotAt (s.size - 1).toNat)))

/-- `foreach`. -/
def foreach (s : VectorCore w) (m : VectorMemory V) (visit : List (V × ℕ) → Status) :
    Status × List (V × ℕ) :=
  visitLoop visit []
    ((List.range s.size.toNat).map fun i => (m.cells.contents (s.slotAt i), i))

/-- The elements. -/
def elements (s : VectorCore w) (m : VectorMemory V) : List V :=
  (List.range s.size.toNat).map fun i => m.cells.contents (s.slotAt i)

end VectorCore

/-- The members of `Vector`. -/
structure VectorObject (w : ℕ) where
  /-- `core_`. -/
  core : VectorCore w
  /-- The arena that `arena_` is bound to. -/
  arena : Option ℕ
  deriving DecidableEq, Repr

namespace VectorObject

/-- `Vector() = default`. -/
def default (w : ℕ) : VectorObject w := ⟨.default w, none⟩

/-- `init(std::byte*, capacity, policy)`. -/
def init (cfg : VectorConfig w V) (v : VectorObject w) (storage : BlockPtr) (capacity : BitVec w)
    (growable : Bool) : Status × VectorObject w :=
  let (st, core) := v.core.init cfg storage capacity growable
  (st, { v with core := core })

/-- `init(byte_span, capacity, policy)`, to which the other overloads delegate; `bytes` is the size
of the span. -/
def initSpan (cfg : VectorConfig w V) (v : VectorObject w) (storage : BlockPtr)
    (bytes capacity : BitVec w) (growable : Bool) : Status × VectorObject w :=
  if bytes < cfg.elemSize * capacity then (.invalid, v) else init cfg v storage capacity growable

/-- `bind_grow_alloc`. -/
def bindGrowAlloc (self : ℕ) (v : VectorObject w) : VectorObject w :=
  if v.arena.isSome then { v with core := { v.core with growAlloc := some self } } else v

/-- `init_from_arena`. -/
def initFromArena (cfg : VectorConfig w V) (self : ℕ) (v : VectorObject w) (m : VectorMemory V)
    (arena : ℕ) (initialCapacity : BitVec w) (growable : Bool) :
    Status × VectorObject w × VectorMemory V :=
  if initialCapacity = 0 then (.invalid, v, m)
  else
    match m.allocate cfg arena (initialCapacity * cfg.elemSize) with
    | (.error st, m) => (st, v, m)
    | (.ok ptr, m) =>
      let (initSt, core) := v.core.init cfg ptr initialCapacity growable
      let v := { v with core := core }
      if initSt ≠ .ok then (initSt, v, m)
      else
        (.ok, bindGrowAlloc self ⟨{ v.core with storageKind := .ownsArena }, some arena⟩, m)

/-- `reserve`. -/
def reserve (cfg : VectorConfig w V) (self : ℕ) (arenaAt : ℕ → Option ℕ) (v : VectorObject w)
    (m : VectorMemory V) (minCapacity : BitVec w) : Status × VectorObject w × VectorMemory V :=
  let v := bindGrowAlloc self v
  let (st, core, m) := v.core.reserve cfg arenaAt m minCapacity
  (st, { v with core := core }, m)

/-- `push_back`. -/
def pushBack (cfg : VectorConfig w V) (arenaAt : ℕ → Option ℕ) (v : VectorObject w)
    (m : VectorMemory V) (elem : V) : Status × VectorObject w × VectorMemory V :=
  let (st, core, m) := v.core.pushBack cfg arenaAt m (some elem)
  (st, { v with core := core }, m)

/-- `pop_back`. -/
def popBack (cfg : VectorConfig w V) (v : VectorObject w) (m : VectorMemory V) (out : Option V) :
    (Status × Option V) × VectorObject w × VectorMemory V :=
  let (result, core, m) := v.core.popBack cfg m out
  (result, { v with core := core }, m)

/-- `clear`, which is what `~Vector` does. -/
def clear (cfg : VectorConfig w V) (v : VectorObject w) (m : VectorMemory V) :
    VectorObject w × VectorMemory V :=
  let (core, m) := v.core.clear cfg m
  ({ v with core := core }, m)

/-- A call of the interface. -/
inductive Call (w : ℕ) (V : Type*)
  | init (storage : Option ℕ) (capacity : BitVec w) (growable : Bool)
  | initSpan (storage : Option ℕ) (bytes capacity : BitVec w) (growable : Bool)
  | initFromArena (arena : ℕ) (initialCapacity : BitVec w) (growable : Bool)
  | pushBack (elem : V)
  | popBack (out : Option V)
  | reserve (minCapacity : BitVec w)
  | clear
  deriving DecidableEq, Repr

/-- The pointer to storage of the caller; `none` is a null pointer. -/
def givenPtr : Option ℕ → BlockPtr
  | none => .null
  | some number => .given number

/-- What the `arena_` members are bound to: of this object, and of the others. -/
def arenaAt (self : ℕ) (others : ℕ → Option ℕ) (v : VectorObject w) : ℕ → Option ℕ :=
  Function.update others self v.arena

/-- Dispatch a call of the object at the address `self`; `others` says what the `arena_` members of
the other objects are bound to. -/
def call (cfg : VectorConfig w V) (self : ℕ) (others : ℕ → Option ℕ)
    (s : VectorObject w × VectorMemory V) : Call w V → Answer V × (VectorObject w × VectorMemory V)
  | .init storage capacity growable =>
    let (st, v) := s.1.init cfg (givenPtr storage) capacity growable
    (.status st, v, s.2)
  | .initSpan storage bytes capacity growable =>
    let (st, v) := s.1.initSpan cfg (givenPtr storage) bytes capacity growable
    (.status st, v, s.2)
  | .initFromArena arena initialCapacity growable =>
    let (st, v) := s.1.initFromArena cfg self s.2 arena initialCapacity growable
    (.status st, v)
  | .pushBack elem =>
    let (st, v) := s.1.pushBack cfg (s.1.arenaAt self others) s.2 elem
    (.status st, v)
  | .popBack out =>
    let (result, v) := s.1.popBack cfg s.2 out
    (.ofOut result, v)
  | .reserve minCapacity =>
    let (st, v) := s.1.reserve cfg self (s.1.arenaAt self others) s.2 minCapacity
    (.status st, v)
  | .clear => (.done, s.1.clear cfg s.2)

end VectorObject

end Memkit
