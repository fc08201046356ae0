import Memkit.Core.WordArithmetic
import Memkit.Foundations.Transition

/-! # The C arena

`arena_alloc`, `arena_calloc` and `arena_reset` of `src/arena.cpp`. Addresses and sizes are words;
a null pointer is the address 0. Between the calls the user may write to memory.

* **`Arena`** — the members of `arena_t` and the memory.
* **`ArenaHistory`** — the arena, and the blocks returned since the last reset.
* **`blocks_sound`** — the blocks are aligned, inside the backing block and disjoint, blocks of
  `arena_calloc` are as large as asked and zeroed, and a failing call changes nothing. -/

namespace Memkit

variable {w : ℕ}

/-- The status codes of `arena.h`. -/
inductive ArenaStatus
  | ok
  | null
  | invalid
  | oom
  | unsupported
  deriving DecidableEq, Repr

/-- The members of `arena_t`, and the memory it hands out. -/
structure Arena (w : ℕ) where
  base : BitVec w
  /-- `capacity_bytes`. -/
  capacity : BitVec w
  /-- `offset_bytes`. -/
  offset : BitVec w
  /-- `allocation_count`. -/
  count : BitVec w
  memory : BitVec w → BitVec 8

namespace Arena

/-- `arena_ptr_is_valid`. -/
def isValid (a : Arena w) : Bool := decide (a.base ≠ 0) && decide (0 < a.capacity)

/-- `arena_reset`. -/
def reset (a : Arena w) : Arena w := { a with offset := 0, count := 0 }

/-- `arena_alloc`: the status, the contents of `*out_ptr` afterwards and the arena; `out` is what
`out_ptr` points to. -/
def alloc (a : Arena w) (size alignment : BitVec w) (out : Option (BitVec w)) :
    (ArenaStatus × Option (BitVec w)) × Arena w :=
  if out = none then ((.null, none), a)
  else if a.isValid = false then ((.null, some 0), a)
  else if size = 0 ∨ alignment = 0 ∨ alignment &&& (alignment - 1) ≠ 0 then ((.invalid, some 0), a)
  else if a.capacity < a.offset then ((.oom, some 0), a)
  else
    let rawAddr := a.base + a.offset
    if rawAddr < a.base then ((.oom, some 0), a)
    else
      let alignedAddr := roundUp rawAddr alignment
      let alignedOffset := alignedAddr - a.base
      if alignedOffset < a.offset then ((.oom, some 0), a)
      else if addWouldOverflow alignedOffset size then ((.oom, some 0), a)
      else
        let newOffset := alignedOffset + size
        if a.capacity < newOffset then ((.oom, some 0), a)
        else ((.ok, some alignedAddr), { a with offset := newOffset, count := a.count + 1 })

/-- `memset(dst, 0, n)`. -/
def zero (memory : BitVec w → BitVec 8) (dst n : BitVec w) : BitVec w → BitVec 8 :=
  fun addr => if addr - dst < n then 0 else memory addr

/-- `arena_calloc`, which leaves `*out_ptr` alone if the product does not fit a word. -/
def calloc (a : Arena w) (count size alignment : BitVec w) (out : Option (BitVec w)) :
    (ArenaStatus × Option (BitVec w)) × Arena w :=
  if count ≠ 0 ∧ mulWouldOverflow count size then ((.invalid, out), a)
  else
    let total := count * size
    match a.alloc total alignment out with
    | ((.ok, some ptr), a) => ((.ok, some ptr), { a with memory := zero a.memory ptr total })
    | result => result

/-! ## What an allocation does -/

/-- A block of `size` bytes at `ptr`, taken from the free end of the arena. -/
structure Placed (a : Arena w) (size alignment ptr : BitVec w) (a' : Arena w) : Prop where
  aligned : ptr.toNat % alignment.toNat = 0
  start : a.base.toNat + a.offset.toNat ≤ ptr.toNat
  stop : ptr.toNat + size.toNat = a.base.toNat + a'.offset.toNat
  fits : a'.offset ≤ a.capacity
  frame : a' = { a with offset := a'.offset, count := a.count + 1 }

variable {a a' : Arena w} {size alignment count ptr n : BitVec w} {out : Option (BitVec w)}
  {memory : BitVec w → BitVec 8}

/-- The address of the free end is exact. -/
theorem toNat_rawAddr (hfit : a.base.toNat + a.capacity.toNat ≤ 2 ^ w)
    (hoffset : a.offset ≤ a.capacity) (hraw : ¬ a.base + a.offset < a.base) :
    (a.base + a.offset).toNat = a.base.toNat + a.offset.toNat := by
  have hbase := a.base.isLt
  have hoff := a.offset.isLt
  rw [BitVec.le_def] at hoffset
  rw [BitVec.lt_def, BitVec.toNat_add] at hraw
  rw [BitVec.toNat_add]
  by_cases hlt : a.base.toNat + a.offset.toNat < 2 ^ w
  · exact Nat.mod_eq_of_lt hlt
  · rw [Nat.mod_eq_sub_mod (by omega), Nat.mod_eq_of_lt (by omega)] at hraw
    omega

/-- **`arena_alloc`** places a block or changes nothing. -/
theorem alloc_cases (hfit : a.base.toNat + a.capacity.toNat ≤ 2 ^ w) (size alignment : BitVec w)
    (out : Option (BitVec w)) :
    (∃ ptr a', a.alloc size alignment out = ((.ok, some ptr), a') ∧
        a.Placed size alignment ptr a') ∨
      ∃ status ptr, status ≠ .ok ∧ a.alloc size alignment out = ((status, ptr), a) := by
  unfold alloc
  by_cases hout : out = none
  · exact .inr ⟨.null, _, by decide, if_pos hout⟩
  by_cases hvalid : a.isValid = false
  · exact .inr ⟨.null, _, by decide, by rw [if_neg hout, if_pos hvalid]⟩
  by_cases hargs : size = 0 ∨ alignment = 0 ∨ alignment &&& (alignment - 1) ≠ 0
  · exact .inr ⟨.invalid, _, by decide, by rw [if_neg hout, if_neg hvalid, if_pos hargs]⟩
  by_cases hoffset : a.capacity < a.offset
  · exact .inr ⟨.oom, _, by decide, by rw [if_neg hout, if_neg hvalid, if_neg hargs, if_pos hoffset]⟩
  simp only [if_neg hout, if_neg hvalid, if_neg hargs, if_neg hoffset]
  by_cases hraw : a.base + a.offset < a.base
  · exact .inr ⟨.oom, _, by decide, if_pos hraw⟩
  rw [if_neg hraw]
  generalize haligned : roundUp (a.base + a.offset) alignment = aligned
  by_cases hback : aligned - a.base < a.offset
  · exact .inr ⟨.oom, _, by decide, if_pos hback⟩
  rw [if_neg hback]
  by_cases hover : addWouldOverflow (aligned - a.base) size = true
  · exact .inr ⟨.oom, _, by decide, if_pos hover⟩
  rw [if_neg hover]
  by_cases hfull : a.capacity < aligned - a.base + size
  · exact .inr ⟨.oom, _, by decide, if_pos hfull⟩
  rw [if_neg hfull]
  refine .inl ⟨aligned, _, rfl, ?_⟩
  -- all checks have passed
  push Not at hargs
  obtain ⟨hsize, halign, hpow⟩ := hargs
  have hsum := toNat_add_of_not_overflow (Bool.eq_false_of_not_eq_true hover)
  rw [BitVec.not_lt] at hoffset hfull hback
  rw [BitVec.le_def, hsum] at hfull
  have hpos : 0 < size.toNat := by
    rw [Nat.pos_iff_ne_zero]
    exact fun h0 => hsize (BitVec.eq_of_toNat_eq (by simpa using h0))
  have hnull : 0 < a.base.toNat := by
    have hne : a.base ≠ 0 := by
      rintro h0
      simp [isValid, h0] at hvalid
    rw [Nat.pos_iff_ne_zero]
    exact fun h0 => hne (BitVec.eq_of_toNat_eq (by simpa using h0))
  have hrawNat := toNat_rawAddr hfit hoffset hraw
  obtain ⟨hmod, hround⟩ :
      (roundUp (a.base + a.offset) alignment).toNat % alignment.toNat = 0 ∧
        ((a.base + a.offset).toNat ≤ (roundUp (a.base + a.offset) alignment).toNat ∨
          roundUp (a.base + a.offset) alignment = 0) := roundUp_spec halign hpow
  rw [haligned] at hmod hround
  have hbase := a.base.isLt
  have hcapacity := a.capacity.isLt
  rcases hround with hround | hzero
  · rw [hrawNat] at hround
    have hle : a.base ≤ aligned := by
      rw [BitVec.le_def]
      omega
    have hdist : (aligned - a.base).toNat = aligned.toNat - a.base.toNat :=
      BitVec.toNat_sub_of_le hle
    refine ⟨hmod, hround, ?_, ?_, rfl⟩
    · show aligned.toNat + size.toNat = a.base.toNat + (aligned - a.base + size).toNat
      rw [hsum, hdist]
      omega
    · rw [BitVec.le_def]
      simpa only [hsum] using hfull
  · -- rounding up has wrapped: the distance to the base is past the end of the block
    exfalso
    have hdist : (aligned - a.base).toNat = 2 ^ w - a.base.toNat := by
      have hword : (0 : BitVec w).toNat = 0 := BitVec.toNat_zero
      rw [hzero, BitVec.toNat_sub, hword, Nat.add_zero]
      exact Nat.mod_eq_of_lt (by omega)
    omega

/-- Zeroing clears the bytes of the block. -/
theorem zero_eq {i : ℕ} (hi : i < n.toNat) :
    zero memory ptr n (ptr + BitVec.ofNat w i) = 0 := by
  have hlt := n.isLt
  have hdist : ptr + BitVec.ofNat w i - ptr < n := by
    rw [BitVec.add_comm, BitVec.add_sub_cancel, BitVec.lt_def, BitVec.toNat_ofNat,
      Nat.mod_eq_of_lt (by omega)]
    exact hi
  rw [zero, if_pos hdist]

/-- **`arena_calloc`** places a zeroed block of the exact size or changes nothing. -/
theorem calloc_cases (hfit : a.base.toNat + a.capacity.toNat ≤ 2 ^ w)
    (count size alignment : BitVec w) (out : Option (BitVec w)) :
    (∃ ptr a', a.calloc count size alignment out =
        ((.ok, some ptr), { a' with memory := zero a'.memory ptr (count * size) }) ∧
      a.Placed (count * size) alignment ptr a' ∧
      (count * size).toNat = count.toNat * size.toNat) ∨
      ∃ status ptr, status ≠ .ok ∧ a.calloc count size alignment out = ((status, ptr), a) := by
  unfold calloc
  by_cases hover : count ≠ 0 ∧ mulWouldOverflow count size = true
  · exact .inr ⟨.invalid, out, by decide, if_pos hover⟩
  rw [if_neg hover]
  have hexact : (count * size).toNat = count.toNat * size.toNat := by
    by_cases hcount : count = 0
    · rw [hcount]
      simp
    · have hfalse : mulWouldOverflow count size = false := by
        by_contra hne
        exact hover ⟨hcount, Bool.eq_true_of_not_eq_false hne⟩
      exact toNat_mul_of_not_overflow hfalse
  rcases alloc_cases hfit (count * size) alignment out with
    ⟨ptr, a', halloc, hplaced⟩ | ⟨status, ptr, hstatus, halloc⟩
  · simp only [halloc]
    exact .inl ⟨ptr, a', rfl, hplaced, hexact⟩
  · simp only [halloc]
    refine .inr ⟨status, ptr, hstatus, ?_⟩
    cases status with
    | ok => exact absurd rfl hstatus
    | null | invalid | oom | unsupported => rfl

end Arena

/-- A block that was returned. -/
structure ArenaBlock (w : ℕ) where
  addr : BitVec w
  size : BitVec w
  alignment : BitVec w

/-- Two blocks have no byte in common. -/
def ArenaBlock.Disjoint (b c : ArenaBlock w) : Prop :=
  b.addr.toNat + b.size.toNat ≤ c.addr.toNat ∨ c.addr.toNat + c.size.toNat ≤ b.addr.toNat

/-- The arena, and the blocks returned since the last reset, latest first. -/
structure ArenaHistory (w : ℕ) where
  arena : Arena w
  blocks : List (ArenaBlock w)

namespace ArenaHistory

/-- What the user does. -/
inductive Call (w : ℕ)
  | alloc (size alignment : BitVec w) (out : Option (BitVec w))
  | calloc (count size alignment : BitVec w) (out : Option (BitVec w))
  | reset
  /-- The user writes a byte. -/
  | write (addr : BitVec w) (byte : BitVec 8)
  deriving DecidableEq, Repr

/-- What a call answers. -/
inductive Reply (w : ℕ)
  | block (status : ArenaStatus) (ptr : Option (BitVec w))
  | done
  deriving DecidableEq, Repr

/-- Record the block of a call that succeeded. -/
def record (s : ArenaHistory w) (size alignment : BitVec w)
    (result : (ArenaStatus × Option (BitVec w)) × Arena w) : Reply w × ArenaHistory w :=
  match result with
  | ((.ok, some ptr), arena) =>
    (.block .ok (some ptr), { arena := arena, blocks := ⟨ptr, size, alignment⟩ :: s.blocks })
  | ((status, ptr), arena) => (.block status ptr, { s with arena := arena })

/-- One call. -/
def step (s : ArenaHistory w) : Call w → Reply w × ArenaHistory w
  | .alloc size alignment out => s.record size alignment (s.arena.alloc size alignment out)
  | .calloc count size alignment out =>
    s.record (count * size) alignment (s.arena.calloc count size alignment out)
  | .reset => (.done, { arena := s.arena.reset, blocks := [] })
  | .write addr byte =>
    (.done,
      { s with arena :=
          { s.arena with memory := Function.update s.arena.memory addr byte } })

/-- The arena after `arena_init` over a backing block. -/
def init (base capacity : BitVec w) (memory : BitVec w → BitVec 8) : ArenaHistory w where
  arena := { base := base, capacity := capacity, offset := 0, count := 0, memory := memory }
  blocks := []

/-! ## What holds of every run -/

/-- The blocks returned since the last reset are aligned, inside the backing block and disjoint. -/
structure Sound (base capacity : BitVec w) (s : ArenaHistory w) : Prop where
  aligned : ∀ b ∈ s.blocks, b.addr.toNat % b.alignment.toNat = 0
  inside : ∀ b ∈ s.blocks, base.toNat ≤ b.addr.toNat ∧
    b.addr.toNat + b.size.toNat ≤ base.toNat + capacity.toNat
  disjoint : s.blocks.Pairwise ArenaBlock.Disjoint

/-- A successful call adds its block, which holds `count * size` zeroed bytes if it came from
`arena_calloc`; a failing call leaves offset, count and blocks as they are. -/
def Answered (s : ArenaHistory w) : Call w → Reply w × ArenaHistory w → Prop
  | .alloc size alignment _, (.block status ptr, t) =>
    if status = .ok then ∃ addr, ptr = some addr ∧ t.blocks = ⟨addr, size, alignment⟩ :: s.blocks
    else t.arena.offset = s.arena.offset ∧ t.arena.count = s.arena.count ∧ t.blocks = s.blocks
  | .calloc count size alignment _, (.block status ptr, t) =>
    if status = .ok then
      ∃ addr, ptr = some addr ∧ t.blocks = ⟨addr, count * size, alignment⟩ :: s.blocks ∧
        (count * size).toNat = count.toNat * size.toNat ∧
        ∀ i < count.toNat * size.toNat, t.arena.memory (addr + BitVec.ofNat w i) = 0
    else t.arena.offset = s.arena.offset ∧ t.arena.count = s.arena.count ∧ t.blocks = s.blocks
  | .reset, (.done, t) => t.blocks = []
  | .write _ _, (.done, t) => t.blocks = s.blocks
  | _, _ => False

/-- The invariant: the blocks lie between the base and the offset. -/
structure Inv (base capacity : BitVec w) (s : ArenaHistory w) : Prop where
  base_eq : s.arena.base = base
  capacity_eq : s.arena.capacity = capacity
  offset_le : s.arena.offset ≤ capacity
  aligned : ∀ b ∈ s.blocks, b.addr.toNat % b.alignment.toNat = 0
  inside : ∀ b ∈ s.blocks, base.toNat ≤ b.addr.toNat ∧
    b.addr.toNat + b.size.toNat ≤ base.toNat + s.arena.offset.toNat
  disjoint : s.blocks.Pairwise ArenaBlock.Disjoint

variable {base capacity size alignment ptr : BitVec w} {s : ArenaHistory w} {a' : Arena w}

/-- The offset 0 is inside every block. -/
theorem zero_le (capacity : BitVec w) : (0 : BitVec w) ≤ capacity := by
  rw [BitVec.le_def]
  exact (BitVec.toNat_zero (w := w)).le.trans (Nat.zero_le _)

theorem inv_init (base capacity : BitVec w) (memory : BitVec w → BitVec 8) :
    Inv base capacity (init base capacity memory) where
  base_eq := rfl
  capacity_eq := rfl
  offset_le := zero_le capacity
  aligned _ hb := absurd hb List.not_mem_nil
  inside _ hb := absurd hb List.not_mem_nil
  disjoint := List.Pairwise.nil

/-- The invariant gives the soundness of the blocks. -/
theorem Inv.sound (h : Inv base capacity s) : Sound base capacity s where
  aligned := h.aligned
  inside := by
    intro b hb
    have hoffset := h.offset_le
    rw [BitVec.le_def] at hoffset
    obtain ⟨hstart, hstop⟩ := h.inside b hb
    exact ⟨hstart, by omega⟩
  disjoint := h.disjoint

/-- A block that is placed keeps the invariant. -/
theorem Inv.place (h : Inv base capacity s) (hplaced : s.arena.Placed size alignment ptr a')
    (memory : BitVec w → BitVec 8) :
    Inv base capacity
      { arena := { a' with memory := memory }, blocks := ⟨ptr, size, alignment⟩ :: s.blocks } := by
  have hframe := hplaced.frame
  have hbase : a'.base = s.arena.base := by rw [hframe]
  have hcapacity : a'.capacity = s.arena.capacity := by rw [hframe]
  have hstart := hplaced.start
  have hstop := hplaced.stop
  have hfits := hplaced.fits
  rw [h.base_eq] at hstart hstop
  rw [h.capacity_eq] at hfits
  refine ⟨hbase.trans h.base_eq, hcapacity.trans h.capacity_eq, hfits, ?_, ?_, ?_⟩
  · intro b hb
    rcases List.mem_cons.mp hb with rfl | hb
    · exact hplaced.aligned
    · exact h.aligned b hb
  · intro b hb
    show base.toNat ≤ b.addr.toNat ∧
      b.addr.toNat + b.size.toNat ≤ base.toNat + a'.offset.toNat
    rcases List.mem_cons.mp hb with rfl | hb
    · have hlow : base.toNat ≤ ptr.toNat := by omega
      exact ⟨hlow, hstop.le⟩
    · obtain ⟨hlow, hhigh⟩ := h.inside b hb
      exact ⟨hlow, by omega⟩
  · refine List.pairwise_cons.mpr ⟨?_, h.disjoint⟩
    -- the earlier blocks end at the old offset
    intro b hb
    obtain ⟨-, hhigh⟩ := h.inside b hb
    have hlow : b.addr.toNat + b.size.toNat ≤ ptr.toNat := by omega
    exact .inr hlow

/-- A call that fails hands out no block. -/
theorem record_refused (s : ArenaHistory w) (size alignment : BitVec w) {status : ArenaStatus}
    (hstatus : status ≠ .ok) (ptr : Option (BitVec w)) (a : Arena w) :
    s.record size alignment ((status, ptr), a) = (.block status ptr, { s with arena := a }) := by
  cases status with
  | ok => exact absurd rfl hstatus
  | null | invalid | oom | unsupported => rfl

/-- **One call** is answered soundly and keeps the invariant. -/
theorem Inv.step (h : Inv base capacity s) (hfit : base.toNat + capacity.toNat ≤ 2 ^ w)
    (call : Call w) :
    Inv base capacity (step s call).2 ∧ Answered s call (step s call) := by
  have hfit' : s.arena.base.toNat + s.arena.capacity.toNat ≤ 2 ^ w := by
    rwa [h.base_eq, h.capacity_eq]
  cases call with
  | alloc size alignment out =>
    rcases Arena.alloc_cases hfit' size alignment out with
      ⟨ptr, a', halloc, hplaced⟩ | ⟨status, ptr, hstatus, halloc⟩
    · simp only [ArenaHistory.step, record, halloc, Answered, if_true]
      exact ⟨h.place hplaced a'.memory, ptr, rfl, rfl⟩
    · simp only [ArenaHistory.step, halloc, record_refused s _ _ hstatus, Answered, if_neg hstatus,
        and_self, and_true]
      exact h
  | calloc count size alignment out =>
    rcases Arena.calloc_cases hfit' count size alignment out with
      ⟨ptr, a', hcalloc, hplaced, hexact⟩ | ⟨status, ptr, hstatus, hcalloc⟩
    · simp only [ArenaHistory.step, record, hcalloc, Answered, if_true]
      refine ⟨h.place hplaced _, ptr, rfl, rfl, hexact, fun i hi => ?_⟩
      exact Arena.zero_eq (hexact ▸ hi)
    · simp only [ArenaHistory.step, hcalloc, record_refused s _ _ hstatus, Answered, if_neg hstatus,
        and_self, and_true]
      exact h
  | reset =>
    refine ⟨⟨h.base_eq, h.capacity_eq, zero_le capacity, ?_, ?_, List.Pairwise.nil⟩, rfl⟩
    · exact fun b hb => absurd hb List.not_mem_nil
    · exact fun b hb => absurd hb List.not_mem_nil
  | write addr byte =>
    exact ⟨⟨h.base_eq, h.capacity_eq, h.offset_le, h.aligned, h.inside, h.disjoint⟩, rfl⟩

/-- **Blocks are sound**: after any calls on an arena over a backing block that does not wrap, the
blocks are aligned, inside and disjoint, and the next call is answered soundly. -/
theorem blocks_sound (base capacity : BitVec w) (memory : BitVec w → BitVec 8)
    (hfit : base.toNat + capacity.toNat ≤ 2 ^ w) (calls : List (Call w)) (call : Call w) :
    Sound base capacity (Mealy.final step (init base capacity memory) calls) ∧
      Answered (Mealy.final step (init base capacity memory) calls) call
        (step (Mealy.final step (init base capacity memory) calls) call) := by
  have hinv : Inv base capacity (Mealy.final step (init base capacity memory) calls) :=
    (Mealy.everyCall_true (init base capacity memory) calls).final_invariant
      (Inv base capacity) (fun _ call h _ => (h.step hfit call).1) (inv_init base capacity memory)
  exact ⟨hinv.sound, (hinv.step hfit call).2⟩

/-- Sixteen bytes at the end of the address space: an alignment of 128 bytes makes the rounding up
wrap, and is refused. -/
theorem blocks_sound_top :
    Mealy.outputs step (init (0xFFFFFFFFFFFFFFF0 : BitVec 64) 0x10 fun _ => 7)
        [.alloc 3 1 (some 5), .alloc 1 0x80 (some 5), .calloc 2 2 4 (some 5)] =
      [.block .ok (some 0xFFFFFFFFFFFFFFF0), .block .oom (some 0),
        .block .ok (some 0xFFFFFFFFFFFFFFF4)] ∧
    Sound 0xFFFFFFFFFFFFFFF0 0x10
      (Mealy.final step (init (0xFFFFFFFFFFFFFFF0 : BitVec 64) 0x10 fun _ => 7)
        [.alloc 3 1 (some 5), .alloc 1 0x80 (some 5), .calloc 2 2 4 (some 5)]) :=
  ⟨by decide, (blocks_sound (0xFFFFFFFFFFFFFFF0 : BitVec 64) 0x10 (fun _ => 7) (by decide)
    [.alloc 3 1 (some 5), .alloc 1 0x80 (some 5), .calloc 2 2 4 (some 5)] .reset).1⟩

end ArenaHistory

end Memkit
