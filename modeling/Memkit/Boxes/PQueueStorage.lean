import Memkit.Moves.MovedQueues
import Memkit.Sequences.PQueueFailure

/-! # The storage of a priority queue

The class `PQueue` of `containers/pqueue.hpp` and `c_api/pqueue_box.hpp` with the heap. Both let a
`pqueue_core` grow into a larger block, and each has its own `reallocate`: the class always calls
`std::realloc`, the box looks at where its storage comes from.

* **`HeapMemory`** — the memory of the objects and a ledger of the blocks of the heap.
* **`HeapQueue`** — the class: the object of `PQueueObject` with its initialisations and destructor.
* **`PQueueBox`** — the box. -/

namespace Memkit

variable {w : ℕ} {V : Type*}

/-- What a queue is built with, and what the arenas answer: the status of the `n`-th request. -/
structure PQueueEnv (w : ℕ) (V : Type*) extends PQueueClass w V where
  arenaAlloc : ℕ → ℕ → BitVec w → Status

/-- The bytes of a block for this many elements. -/
def PQueueEnv.bytes (env : PQueueEnv w V) (capacity : BitVec w) : BitVec w :=
  capacity * BitVec.ofNat w env.core.elemSize

/-- The memory of the objects. The ledger holds the blocks that the heap returned and that were not
freed: freeing or reallocating another block is a fault. -/
structure HeapMemory (V : Type*) extends ObjectMemory (BlockPtr × ℕ) V where
  heap : Ledger BlockPtr

namespace HeapMemory

/-- Memory with any contents and no blocks of the heap. -/
def start (memory : BlockPtr × ℕ → V) : HeapMemory V := ⟨⟨memory, 0⟩, .empty BlockPtr⟩

/-- `std::malloc`. -/
def malloc (env : PQueueEnv w V) (m : HeapMemory V) (bytes : BitVec w) : BlockPtr × HeapMemory V :=
  if env.grants m.requests bytes then
    (.heap m.requests,
      { m with heap := m.heap.construct (.heap m.requests) true, requests := m.requests + 1 })
  else (.null, { m with requests := m.requests + 1 })

/-- `std::realloc` of a block with this many elements. Those that fit the new block are moved there;
a null pointer is no block. -/
def realloc (env : PQueueEnv w V) (m : HeapMemory V) (ptr : BlockPtr) (count : ℕ) (bytes : BitVec w) :
    BlockPtr × HeapMemory V :=
  if env.grants m.requests bytes then
    (.heap m.requests,
      { contents := fun a =>
          if a.1 = .heap m.requests ∧ a.2 < count ∧ (a.2 + 1) * env.core.elemSize ≤ bytes.toNat then
            m.contents (ptr, a.2)
          else m.contents a
        requests := m.requests + 1
        heap :=
          (if ptr = .null then m.heap else m.heap.destroy ptr).construct (.heap m.requests) true })
  else
    (.null,
      { m with
        heap := if ptr = .null then m.heap else m.heap.access ptr
        requests := m.requests + 1 })

/-- `std::free`. -/
def free (m : HeapMemory V) (ptr : BlockPtr) : HeapMemory V := { m with heap := m.heap.destroy ptr }

/-- `allocate` of an arena, which returns no block twice. -/
def allocate (env : PQueueEnv w V) (m : HeapMemory V) (arena : ℕ) (bytes : BitVec w) :
    Except Status BlockPtr × HeapMemory V :=
  let status := env.arenaAlloc arena m.requests bytes
  (if status = .ok then .ok (.arena m.requests) else .error status,
    { m with requests := m.requests + 1 })

end HeapMemory

namespace PQueueObject

/-- `init` of `core_`. -/
def initCore (h : PQueueObject w) (storage : BlockPtr) (capacity : BitVec w) (growable : Bool) :
    Status × PQueueObject w :=
  if storage = .null ∨ capacity = 0 then (.invalid, h)
  else (.ok, { h with storage := storage, capacity := capacity, size := 0, growable := growable })

section Growth

variable {σ : Type*}

/-- `ensure_capacity` of the class and of the box, with the `reallocate` of either. -/
def ensureCapacityBy (h : PQueueObject w) (s : σ) (reallocate : BitVec w → Status × σ)
    (minCapacity : BitVec w) : Status × σ :=
  if minCapacity ≤ h.capacity then (.ok, s)
  else if h.growable = false then (.full, s)
  else
    let newCapacity := growCapacity h.capacity minCapacity
    if newCapacity < minCapacity then (.oom, s) else reallocate newCapacity

/-- `reserve` of the class and of the box. -/
def reserveBy (h : PQueueObject w) (s : σ) (reallocate : BitVec w → Status × σ)
    (minCapacity : BitVec w) : Status × σ :=
  if minCapacity ≤ h.capacity then (.ok, s)
  else if h.growable = false then (.full, s)
  else reallocate (growCapacity h.capacity minCapacity)

end Growth

/-- What a call of `core_` leaves in the object and in the memory. -/
def put (h : PQueueObject w) (m : HeapMemory V) (s : PQueue V) : PQueueObject w × HeapMemory V :=
  let (h, objects) := h.after m.toObjectMemory s
  (h, { m with toObjectMemory := objects })

end PQueueObject

/-! ## The class -/

/-- An object of the class, and the memory. -/
abbrev HeapQueue (w : ℕ) (V : Type*) := PQueueObject w × HeapMemory V

namespace HeapQueue

/-- `PQueue() = default`. -/
def default (w : ℕ) (memory : BlockPtr × ℕ → V) : HeapQueue w V :=
  (⟨.null, 0, 0, false, 0, false⟩, .start memory)

/-- `init`; a null pointer is `none`. -/
def init (s : HeapQueue w V) (storage : Option ℕ) (capacity : BitVec w) (growable : Bool) :
    Status × HeapQueue w V :=
  let (st, h) := s.1.initCore (VectorObject.givenPtr storage) capacity growable
  (st, h, s.2)

/-- `init_from_arena`. -/
def initFromArena (env : PQueueEnv w V) (s : HeapQueue w V) (arena : ℕ) (initialCapacity : BitVec w)
    (growable : Bool) : Status × HeapQueue w V :=
  let initialCapacity := if initialCapacity = 0 then 1 else initialCapacity
  match s.2.allocate env arena (env.bytes initialCapacity) with
  | (.error st, m) => (st, s.1, m)
  | (.ok ptr, m) =>
    let (st, h) := s.1.initCore ptr initialCapacity growable
    (st, h, m)

/-- `reallocate`. -/
def reallocate (env : PQueueEnv w V) (s : HeapQueue w V) (newCapacity : BitVec w) :
    Status × HeapQueue w V :=
  if env.allowHeap = false then (.unsupported, s)
  else
    let (newStorage, m) := s.2.realloc env s.1.storage s.1.size (env.bytes newCapacity)
    if newStorage = .null then (.oom, s.1, m)
    else (.ok, { s.1 with storage := newStorage, capacity := newCapacity, ownsStorage := true }, m)

/-- `ensure_capacity`. -/
def ensureCapacity (env : PQueueEnv w V) (s : HeapQueue w V) (minCapacity : BitVec w) :
    Status × HeapQueue w V :=
  s.1.ensureCapacityBy s (s.reallocate env) minCapacity

/-- `reserve`. -/
def reserve (env : PQueueEnv w V) (s : HeapQueue w V) (minCapacity : BitVec w) :
    Status × HeapQueue w V :=
  s.1.reserveBy s (s.reallocate env) minCapacity

/-- `emplace`, to which the pushes delegate. -/
def emplace (env : PQueueEnv w V) (s : HeapQueue w V) (value : V) : Status × HeapQueue w V :=
  let (growSt, s) := s.ensureCapacity env (BitVec.ofNat w (s.1.size + 1))
  if growSt ≠ .ok then (growSt, s)
  else
    let (st, q) := (s.1.core s.2.toObjectMemory).push (s.1.config env.toPQueueClass) (some value)
    (st, s.1.put s.2 q)

/-- A call of the class. -/
inductive Call (w : ℕ) (V : Type*)
  | init (storage : Option ℕ) (capacity : BitVec w) (growable : Bool)
  | initFromArena (arena : ℕ) (initialCapacity : BitVec w) (growable : Bool)
  | of (c : PQueueObject.Call w V)

/-- Dispatch a call. The calls that do not grow are those of `PQueueObject`. -/
def call (env : PQueueEnv w V) (s : HeapQueue w V) :
    Call w V → PQueueObject.Reply w V × HeapQueue w V
  | .init storage capacity growable =>
    let (st, s) := s.init storage capacity growable
    (.answer (.status st), s)
  | .initFromArena arena initialCapacity growable =>
    let (st, s) := s.initFromArena env arena initialCapacity growable
    (.answer (.status st), s)
  | .of (.push value) =>
    let (st, s) := s.emplace env value
    (.answer (.status st), s)
  | .of (.reserve minCapacity) =>
    let (st, s) := s.reserve env minCapacity
    (.answer (.status st), s)
  | .of c =>
    let (reply, h, objects) := s.1.call env.toPQueueClass s.2.toObjectMemory c
    (reply, h, { s.2 with toObjectMemory := objects })

/-- `~PQueue`: `clear` and `release_storage`. -/
def destroy (env : PQueueEnv w V) (s : HeapQueue w V) : HeapMemory V :=
  let (h, m) := s.1.put s.2 ((s.1.core s.2.toObjectMemory).clear (s.1.config env.toPQueueClass))
  if h.ownsStorage ∧ h.storage ≠ .null ∧ env.allowHeap then m.free h.storage else m

end HeapQueue

/-! ## The box -/

/-- `pqueue_config_t`, whose `elem_size` goes to the policy. -/
structure PQueueBoxConfig (w : ℕ) extends ElementConfig w where
  /-- The bit `GROWABLE` of `flags`. -/
  growable : Bool
  deriving DecidableEq, Repr

/-- The members of `pqueue_box` after `init`. The bits of `c_flags_` are `ownsStorage`, `growable`,
which `queue_policy_` has too, and the two here. -/
structure PQueueBox (w : ℕ) extends PQueueObject w where
  /-- `DYNAMIC_STORAGE`. -/
  dynamicStorage : Bool
  /-- `ARENA_STORAGE`. -/
  arenaStorage : Bool
  /-- `arena_`. -/
  arena : Option ℕ

namespace PQueueBox

/-- How `arena_alloc` that fails is reported. -/
def arenaStatus (status : Status) : Status := if status = .oom then .oom else .invalid

/-- `allocate_storage`: the storage and `c_flags_`. -/
def allocateStorage (env : PQueueEnv w V) (m : HeapMemory V) (config : PQueueBoxConfig w)
    (capacity : BitVec w) : Except Status (BlockPtr × ElementFlags) × HeapMemory V :=
  match config.storage with
  | some number => (.ok (.given number, .cleared), m)
  | none =>
    match config.arena with
    | some arena =>
      match m.allocate env arena (env.bytes capacity) with
      | (.error status, m) => (.error (arenaStatus status), m)
      | (.ok ptr, m) => (.ok (ptr, ⟨true, false, true⟩), m)
    | none =>
      if env.allowHeap && config.flags.dynamicStorage then
        let (ptr, m) := m.malloc env (env.bytes capacity)
        if ptr = .null then (.error .oom, m) else (.ok (ptr, ⟨true, true, false⟩), m)
      else (.error .invalid, m)

/-- `release_storage`, apart from the storage kind, which nothing reads. -/
def releaseStorage (env : PQueueEnv w V) (b : PQueueBox w) (m : HeapMemory V) : HeapMemory V :=
  if b.ownsStorage = false ∨ b.storage = .null then m
  else if env.allowHeap && b.dynamicStorage then m.free b.storage
  else m

/-- `pqueue_init`: a box whose initialisation fails is not used. -/
def init (env : PQueueEnv w V) (m : HeapMemory V) (config : PQueueBoxConfig w) :
    Except Status (PQueueBox w) × HeapMemory V :=
  let valid := PQueue.validateConfig (BitVec.ofNat w env.core.elemSize) (some config.toElementConfig)
  if valid ≠ .ok then (.error valid, m)
  else
    let capacity := if config.storage = none ∧ config.capacity = 0 then 1 else config.capacity
    match allocateStorage env m config capacity with
    | (.error st, m) => (.error st, m)
    | (.ok (storage, flags), m) =>
      let box (h : PQueueObject w) (ownsStorage : Bool) : PQueueBox w :=
        { h with
          ownsStorage := ownsStorage
          dynamicStorage := flags.dynamicStorage
          arenaStorage := flags.arenaStorage
          arena := config.arena }
      let (st, h) :=
        PQueueObject.initCore ⟨.null, 0, 0, false, 0, false⟩ storage capacity config.growable
      if st ≠ .ok then (.error st, releaseStorage env (box h flags.ownsStorage) m)
      else
        (.ok (box h (flags.ownsStorage || config.storage.isSome && config.flags.ownsStorage)), m)

/-- `copy_range` to a new block, of the elements of the queue. -/
def copyRange (env : PQueueEnv w V) (b : PQueueBox w) (m : HeapMemory V) (dst : BlockPtr) :
    Status × PQueueBox w × HeapMemory V :=
  let (st, cells) :=
    Cells.copySlots env.core.policy (fun i => (dst, i)) (fun i => (b.storage, i))
      (List.range b.size) ⟨m.contents, b.copies, .empty _⟩
  (st, { b with copies := cells.copies }, { m with contents := cells.contents })

/-- `reallocate`. -/
def reallocate (env : PQueueEnv w V) (b : PQueueBox w) (m : HeapMemory V) (newCapacity : BitVec w) :
    Status × PQueueBox w × HeapMemory V :=
  if env.allowHeap && b.dynamicStorage then
    let (newStorage, m) := m.realloc env b.storage b.size (env.bytes newCapacity)
    if newStorage = .null then (.oom, b, m)
    else (.ok, { b with storage := newStorage, capacity := newCapacity }, m)
  else
    match b.arena with
    | some arena =>
      match m.allocate env arena (env.bytes newCapacity) with
      | (.error status, m) => (arenaStatus status, b, m)
      | (.ok newPtr, m) =>
        let (copySt, b, m) := b.copyRange env m newPtr
        if copySt ≠ .ok then (copySt, b, m)
        else
          (.ok,
            { b with
              ownsStorage := true
              arenaStorage := true
              dynamicStorage := false
              storage := newPtr
              capacity := newCapacity }, b.releaseStorage env m)
    | none =>
      if env.allowHeap then
        let (newStorage, m) := m.malloc env (env.bytes newCapacity)
        if newStorage = .null then (.oom, b, m)
        else
          let (copySt, b, m) := b.copyRange env m newStorage
          if copySt ≠ .ok then (copySt, b, m.free newStorage)
          else
            (.ok,
              { b with
                ownsStorage := true
                dynamicStorage := true
                storage := newStorage
                capacity := newCapacity }, b.releaseStorage env m)
      else (.oom, b, m)

/-- `ensure_capacity`. -/
def ensureCapacity (env : PQueueEnv w V) (b : PQueueBox w) (m : HeapMemory V)
    (minCapacity : BitVec w) : Status × PQueueBox w × HeapMemory V :=
  b.ensureCapacityBy (b, m) (b.reallocate env m) minCapacity

/-- `pqueue_reserve`. -/
def reserve (env : PQueueEnv w V) (b : PQueueBox w) (m : HeapMemory V) (minCapacity : BitVec w) :
    Status × PQueueBox w × HeapMemory V :=
  b.reserveBy (b, m) (b.reallocate env m) minCapacity

/-- What a call of `core_` leaves in the box and in the memory. -/
def put (b : PQueueBox w) (m : HeapMemory V) (s : PQueue V) : PQueueBox w × HeapMemory V :=
  let (h, m) := b.toPQueueObject.put m s
  ({ b with toPQueueObject := h }, m)

/-- `pqueue_push`; `none` is a null pointer. -/
def push (env : PQueueEnv w V) (b : PQueueBox w) (m : HeapMemory V) (elem : Option V) :
    Status × PQueueBox w × HeapMemory V :=
  match elem with
  | none => (.nullPtr, b, m)
  | some elem =>
    let (growSt, b, m) := b.ensureCapacity env m (BitVec.ofNat w (b.size + 1))
    if growSt ≠ .ok then (growSt, b, m)
    else
      let (st, q) := (b.core m.toObjectMemory).push (b.config env.toPQueueClass) (some elem)
      (st, b.put m q)

/-- A call of the interface. -/
inductive Call (w : ℕ) (V : Type*)
  | push (elem : Option V)
  | pop (out : Option V)
  | reserve (minCapacity : BitVec w)
  | clear
  deriving DecidableEq, Repr

/-- Dispatch a call. -/
def call (env : PQueueEnv w V) (s : PQueueBox w × HeapMemory V) :
    Call w V → Answer V × (PQueueBox w × HeapMemory V)
  | .push elem =>
    let (st, s) := s.1.push env s.2 elem
    (.status st, s)
  | .pop out =>
    let (result, q) := (s.1.core s.2.toObjectMemory).pop (s.1.config env.toPQueueClass) out
    (.ofOut result, s.1.put s.2 q)
  | .reserve minCapacity =>
    let (st, s) := s.1.reserve env s.2 minCapacity
    (.status st, s)
  | .clear =>
    (.done,
      s.1.put s.2 ((s.1.core s.2.toObjectMemory).clear (s.1.config env.toPQueueClass)))

/-- `deinit`, as far as it concerns the memory. -/
def deinit (env : PQueueEnv w V) (b : PQueueBox w) (m : HeapMemory V) : HeapMemory V :=
  let (b, m) := b.put m ((b.core m.toObjectMemory).clear (b.config env.toPQueueClass))
  b.releaseStorage env m

end PQueueBox

end Memkit
