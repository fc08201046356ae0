import Memkit.Core.PowerOfTwoCapacity
import Memkit.Memory.Arena

/-! # The arena of the C++ interface

`memory::arena` of `memory/arena.hpp`, over a backing storage with an address and a size. It is the
arena of `src/arena.cpp` written again, with the helpers of `detail/utility.hpp`; its calls answer as
those of the C arena on the same block. -/

namespace Memkit

variable {w : ℕ}

theorem isPowerOfTwo_eq_true {value : BitVec w} :
    isPowerOfTwo value = true ↔ value ≠ 0 ∧ value &&& (value - 1) = 0 := by
  rw [isPowerOfTwo, Bool.and_eq_true, bne_iff_ne, beq_iff_eq]

/-- The members of `memory::arena`, and the memory it hands out. -/
structure MemoryArena (w : ℕ) where
  /-- `backing_.data()`. -/
  base : BitVec w
  /-- `backing_.size()`. -/
  capacityBytes : BitVec w
  /-- `offset_bytes_`. -/
  offsetBytes : BitVec w
  /-- `allocation_count_`. -/
  allocationCount : BitVec w
  memory : BitVec w → BitVec 8

namespace MemoryArena

/-- `reset`. -/
def reset (a : MemoryArena w) : MemoryArena w := { a with offsetBytes := 0, allocationCount := 0 }

/-- `allocate`: the status, the contents of `*out_ptr` afterwards and the arena; `out` is what
`out_ptr` points to. -/
def allocate (a : MemoryArena w) (size alignment : BitVec w) (out : Option (BitVec w)) :
    (Status × Option (BitVec w)) × MemoryArena w :=
  if out = none then ((.nullPtr, none), a)
  else if a.base = 0 ∨ a.capacityBytes = 0 then ((.nullPtr, some 0), a)
  else if size = 0 ∨ alignment = 0 ∨ isPowerOfTwo alignment = false then ((.invalid, some 0), a)
  else if a.capacityBytes < a.offsetBytes then ((.oom, some 0), a)
  else
    let rawAddr := a.base + a.offsetBytes
    if rawAddr < a.base then ((.oom, some 0), a)
    else
      let alignedAddr := alignUp rawAddr alignment
      let alignedOffset := alignedAddr - a.base
      if alignedOffset < a.offsetBytes then ((.oom, some 0), a)
      else if addWouldOverflow alignedOffset size then ((.oom, some 0), a)
      else
        let newOffset := alignedOffset + size
        if a.capacityBytes < newOffset then ((.oom, some 0), a)
        else
          ((.ok, some alignedAddr),
            { a with offsetBytes := newOffset, allocationCount := a.allocationCount + 1 })

/-- `calloc`, which leaves `*out_ptr` alone if the product does not fit a word. -/
def calloc (a : MemoryArena w) (count size alignment : BitVec w) (out : Option (BitVec w)) :
    (Status × Option (BitVec w)) × MemoryArena w :=
  if count ≠ 0 ∧ mulWouldOverflow count size then ((.invalid, out), a)
  else
    let total := count * size
    match a.allocate total alignment out with
    | ((.ok, some ptr), a) => ((.ok, some ptr), { a with memory := Arena.zero a.memory ptr total })
    | result => result

/-- What a call answers. -/
inductive Reply (w : ℕ)
  | block (result : Status) (ptr : Option (BitVec w))
  | done
  deriving DecidableEq, Repr

/-- Dispatch a call; between the calls the user may write to memory. -/
def call (a : MemoryArena w) : ArenaHistory.Call w → Reply w × MemoryArena w
  | .alloc size alignment out =>
    let ((st, ptr), a) := a.allocate size alignment out
    (.block st ptr, a)
  | .calloc count size alignment out =>
    let ((st, ptr), a) := a.calloc count size alignment out
    (.block st ptr, a)
  | .reset => (.done, a.reset)
  | .write addr byte => (.done, { a with memory := Function.update a.memory addr byte })

/-- An arena over a backing storage. -/
def init (base capacity : BitVec w) (memory : BitVec w → BitVec 8) : MemoryArena w :=
  ⟨base, capacity, 0, 0, memory⟩

/-! ## The two arenas -/

/-- The status of the C++ interface for one of the C arena. -/
def toStatus : ArenaStatus → Status
  | .ok => .ok
  | .null => .nullPtr
  | .invalid => .invalid
  | .oom => .oom
  | .unsupported => .unsupported

theorem toStatus_eq_ok {status : ArenaStatus} : toStatus status = .ok ↔ status = .ok := by
  cases status <;> decide

/-- The arenas have the same backing block, as many bytes in use and as many allocations. -/
structure Twin (a : Arena w) (b : MemoryArena w) : Prop where
  base : b.base = a.base
  capacity : b.capacityBytes = a.capacity
  offset : b.offsetBytes = a.offset
  count : b.allocationCount = a.count
  memory : b.memory = a.memory

variable {a : Arena w} {b : MemoryArena w}

/-- The tests for a usable backing block agree. -/
theorem Twin.isValid_eq (h : Twin a b) :
    a.isValid = false ↔ b.base = 0 ∨ b.capacityBytes = 0 := by
  have hpos : ¬ 0 < a.capacity ↔ a.capacity = 0 := by
    rw [BitVec.lt_def, ← BitVec.toNat_inj, show (0 : BitVec w).toNat = 0 from BitVec.toNat_zero]
    omega
  rw [h.base, h.capacity, Arena.isValid, Bool.and_eq_false_iff, decide_eq_false_iff_not,
    decide_eq_false_iff_not, not_ne_iff, hpos]

/-- The tests of the arguments agree. -/
theorem args_iff (size alignment : BitVec w) :
    (size = 0 ∨ alignment = 0 ∨ alignment &&& (alignment - 1) ≠ 0) ↔
      (size = 0 ∨ alignment = 0 ∨ isPowerOfTwo alignment = false) := by
  rw [← Bool.not_eq_true, isPowerOfTwo_eq_true]
  tauto

/-- **`allocate`** is `arena_alloc`. -/
theorem Twin.allocate (h : Twin a b) (size alignment : BitVec w) (out : Option (BitVec w)) :
    (b.allocate size alignment out).1 =
        (toStatus (a.alloc size alignment out).1.1, (a.alloc size alignment out).1.2) ∧
      Twin (a.alloc size alignment out).2 (b.allocate size alignment out).2 := by
  unfold MemoryArena.allocate Arena.alloc
  by_cases hout : out = none
  · rw [if_pos hout, if_pos hout]
    exact ⟨rfl, h⟩
  rw [if_neg hout, if_neg hout]
  by_cases hvalid : a.isValid = false
  · rw [if_pos (h.isValid_eq.mp hvalid), if_pos hvalid]
    exact ⟨rfl, h⟩
  rw [if_neg (mt h.isValid_eq.mpr hvalid), if_neg hvalid]
  by_cases hargs : size = 0 ∨ alignment = 0 ∨ alignment &&& (alignment - 1) ≠ 0
  · rw [if_pos ((args_iff size alignment).mp hargs), if_pos hargs]
    exact ⟨rfl, h⟩
  rw [if_neg (mt (args_iff size alignment).mpr hargs), if_neg hargs, h.base, h.capacity, h.offset]
  simp only [alignUp_eq]
  by_cases hoffset : a.capacity < a.offset
  · rw [if_pos hoffset, if_pos hoffset]
    exact ⟨rfl, h⟩
  rw [if_neg hoffset, if_neg hoffset]
  by_cases hraw : a.base + a.offset < a.base
  · rw [if_pos hraw, if_pos hraw]
    exact ⟨rfl, h⟩
  rw [if_neg hraw, if_neg hraw]
  by_cases hback : roundUp (a.base + a.offset) alignment - a.base < a.offset
  · rw [if_pos hback, if_pos hback]
    exact ⟨rfl, h⟩
  rw [if_neg hback, if_neg hback]
  by_cases hover : addWouldOverflow (roundUp (a.base + a.offset) alignment - a.base) size = true
  · rw [if_pos hover, if_pos hover]
    exact ⟨rfl, h⟩
  rw [if_neg hover, if_neg hover]
  by_cases hfull : a.capacity < roundUp (a.base + a.offset) alignment - a.base + size
  · rw [if_pos hfull, if_pos hfull]
    exact ⟨rfl, h⟩
  rw [if_neg hfull, if_neg hfull]
  exact ⟨rfl, rfl, rfl, rfl, congrArg (· + 1) h.count, h.memory⟩

/-- **`calloc`** is `arena_calloc`. -/
theorem Twin.calloc (h : Twin a b) (count size alignment : BitVec w) (out : Option (BitVec w)) :
    (b.calloc count size alignment out).1 =
        (toStatus (a.calloc count size alignment out).1.1,
          (a.calloc count size alignment out).1.2) ∧
      Twin (a.calloc count size alignment out).2 (b.calloc count size alignment out).2 := by
  unfold MemoryArena.calloc Arena.calloc
  by_cases hover : count ≠ 0 ∧ mulWouldOverflow count size = true
  · rw [if_pos hover, if_pos hover]
    exact ⟨rfl, h⟩
  rw [if_neg hover, if_neg hover]
  obtain ⟨hresult, htwin⟩ := h.allocate (count * size) alignment out
  dsimp only
  generalize a.alloc (count * size) alignment out = ra at hresult htwin
  generalize b.allocate (count * size) alignment out = rb at hresult htwin
  obtain ⟨⟨st, ptr⟩, a'⟩ := ra
  obtain ⟨⟨st', ptr'⟩, b'⟩ := rb
  obtain ⟨rfl, rfl⟩ := Prod.mk.inj hresult
  cases st with
  | ok =>
    cases ptr' with
    | none => exact ⟨rfl, htwin⟩
    | some ptr =>
      exact ⟨rfl, htwin.base, htwin.capacity, htwin.offset, htwin.count,
        congrArg (fun memory => Arena.zero memory ptr (count * size)) htwin.memory⟩
  | null | invalid | oom | unsupported => exact ⟨rfl, htwin⟩

/-- The answer of the C++ interface for one of the C arena. -/
def ofArena : ArenaHistory.Reply w → Reply w
  | .block status ptr => .block (toStatus status) ptr
  | .done => .done

/-- Recording a block does not change what is answered, nor the arena. -/
theorem record_eq (s : ArenaHistory w) (size alignment : BitVec w)
    (result : (ArenaStatus × Option (BitVec w)) × Arena w) :
    (s.record size alignment result).1 = .block result.1.1 result.1.2 ∧
      (s.record size alignment result).2.arena = result.2 := by
  obtain ⟨⟨status, ptr⟩, arena⟩ := result
  cases status with
  | ok => cases ptr <;> exact ⟨rfl, rfl⟩
  | null | invalid | oom | unsupported => exact ⟨rfl, rfl⟩

/-- **One call** on both arenas. -/
theorem Twin.call {s : ArenaHistory w} (h : Twin s.arena b) (c : ArenaHistory.Call w) :
    (b.call c).1 = ofArena (ArenaHistory.step s c).1 ∧
      Twin (ArenaHistory.step s c).2.arena (b.call c).2 := by
  cases c with
  | alloc size alignment out =>
    obtain ⟨hresult, htwin⟩ := h.allocate size alignment out
    unfold MemoryArena.call ArenaHistory.step
    dsimp only
    generalize s.arena.alloc size alignment out = ra at hresult htwin
    generalize b.allocate size alignment out = rb at hresult htwin
    obtain ⟨⟨st, ptr⟩, a'⟩ := ra
    obtain ⟨⟨st', ptr'⟩, b'⟩ := rb
    obtain ⟨rfl, rfl⟩ := Prod.mk.inj hresult
    obtain ⟨hreply, harena⟩ := record_eq s size alignment ((st, ptr'), a')
    rw [hreply, harena]
    exact ⟨rfl, htwin⟩
  | calloc count size alignment out =>
    obtain ⟨hresult, htwin⟩ := h.calloc count size alignment out
    unfold MemoryArena.call ArenaHistory.step
    dsimp only
    generalize s.arena.calloc count size alignment out = ra at hresult htwin
    generalize b.calloc count size alignment out = rb at hresult htwin
    obtain ⟨⟨st, ptr⟩, a'⟩ := ra
    obtain ⟨⟨st', ptr'⟩, b'⟩ := rb
    obtain ⟨rfl, rfl⟩ := Prod.mk.inj hresult
    obtain ⟨hreply, harena⟩ := record_eq s (count * size) alignment ((st, ptr'), a')
    rw [hreply, harena]
    exact ⟨rfl, htwin⟩
  | reset => exact ⟨rfl, h.base, h.capacity, rfl, rfl, h.memory⟩
  | write addr byte =>
    refine ⟨rfl, h.base, h.capacity, h.offset, h.count, ?_⟩
    show Function.update b.memory addr byte = Function.update s.arena.memory addr byte
    rw [h.memory]

/-- **The two arenas agree**: on the same backing block they give corresponding statuses and the
same addresses over any calls, and the same bytes in use, allocations and memory after them. -/
theorem agrees_with_arena (base capacity : BitVec w) (memory : BitVec w → BitVec 8)
    (calls : List (ArenaHistory.Call w)) :
    Mealy.outputs call (init base capacity memory) calls =
        (Mealy.outputs ArenaHistory.step (ArenaHistory.init base capacity memory) calls).map
          ofArena ∧
      Twin (Mealy.final ArenaHistory.step (ArenaHistory.init base capacity memory) calls).arena
        (Mealy.final call (init base capacity memory) calls) :=
  Mealy.simulation_map ofArena
    (fun (b : MemoryArena w) (s : ArenaHistory w) => Twin s.arena b)
    (fun _ _ c h => h.call c) ⟨rfl, rfl, rfl, rfl, rfl⟩ calls

/-- On a block of sixteen bytes: rounding, an alignment that is no power of two, a product that does
not fit, and a reset. -/
example :
    Mealy.outputs call (init (0x1001 : BitVec 16) 0x10 fun _ => 7)
      [.alloc 3 4 (some 5), .alloc 1 3 (some 5), .calloc 0x100 0x100 1 (some 5),
        .calloc 3 2 2 (some 5), .alloc 8 1 (some 5), .reset, .alloc 0 1 none,
        .alloc 0x10 1 (some 5)] =
    [.block .ok (some 0x1004), .block .invalid (some 0), .block .invalid (some 5),
      .block .ok (some 0x1008), .block .oom (some 0), .done, .block .nullPtr none,
      .block .ok (some 0x1001)] := by
  decide +kernel

end MemoryArena

end Memkit
