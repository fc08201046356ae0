import Memkit.Core.ElementPolicy
import Memkit.Foundations.ByteBits
import Memkit.Foundations.Transition

/-! # The object pool

`detail/objpool_core.hpp` with `runtime_element_policy`: fixed slots handed out by address. The pool
keeps two records of which slots are in use, a stack of free slot indices and one bit for each slot.

* **`ObjPoolConfig`** — the policy, the capacity and the storage block, with what `init` checks and
  what makes the blocks of the caller blocks.
* **`ObjPool`** — the members of `objpool_core` that the operations change.
* **`PoolSession`** — the pool together with the live addresses: those it handed out and has not
  taken back. -/

namespace Memkit

variable {w : ℕ} {V : Type*}

/-- The members of `objpool_core` that no operation changes. -/
structure ObjPoolConfig (w : ℕ) (V : Type*) where
  /-- `policy_`. -/
  policy : ElementPolicy V
  /-- `policy_.needs_destroy_on_clear()`. -/
  needsDestroy : Bool
  /-- `policy_.elem_size()`. -/
  elemSize : BitVec w
  /-- `capacity_`. -/
  capacity : BitVec w
  /-- The address in `storage_`. -/
  storage : BitVec w
  /-- `size_t` has 16 bits at least. -/
  word_ge : 16 ≤ w
  elemSize_pos : 0 < elemSize.toNat
  storage_ne : storage ≠ 0
  capacity_pos : 0 < capacity.toNat
  capacity_lt : capacity.toNat < 2 ^ 32
  /-- The element block lies in the address space. -/
  storage_fits : storage.toNat + capacity.toNat * elemSize.toNat ≤ 2 ^ w
  /-- So does the free stack of 32-bit indices. -/
  stack_fits : capacity.toNat * 4 < 2 ^ w

/-- The members of `objpool_core` that the operations change, and the elements. -/
structure ObjPool (w : ℕ) (V : Type*) where
  /-- `free_stack_`. -/
  freeStack : ℕ → BitVec 32
  /-- `used_bits_`. -/
  usedBits : ℕ → BitVec 8
  /-- `used_count_`. -/
  usedCount : BitVec w
  /-- `free_count_`. -/
  freeCount : BitVec w
  /-- The elements of the slots. -/
  elems : ℕ → V
  /-- Copy callbacks called so far. -/
  copies : ℕ

namespace ObjPool

/-- `elem_at`. -/
def elemAt (cfg : ObjPoolConfig w V) (index : ℕ) : BitVec w :=
  cfg.storage + BitVec.ofNat w index * cfg.elemSize

/-- `used_bits_bytes`. -/
def usedBitsBytes (capacity : BitVec w) : BitVec w := (capacity + 7) / 8

/-- One round of the loop of `reset_free_list`. -/
def pushInitial (cfg : ObjPoolConfig w V) (freeStack : ℕ → BitVec 32) (i : ℕ) : ℕ → BitVec 32 :=
  Function.update freeStack i ((cfg.capacity - 1 - BitVec.ofNat w i).setWidth 32)

/-- `reset_free_list`. -/
def resetFreeList (cfg : ObjPoolConfig w V) (p : ObjPool w V) : ObjPool w V :=
  { p with
    usedBits := fun byte => if byte < (usedBitsBytes cfg.capacity).toNat then 0 else p.usedBits byte
    usedCount := 0
    freeCount := cfg.capacity
    freeStack := (List.range cfg.capacity.toNat).foldl (pushInitial cfg) p.freeStack }

/-- One round of the loop of `clear`. -/
def destroyUsed (cfg : ObjPoolConfig w V) (bits : ℕ → BitVec 8) (elems : ℕ → V) (i : ℕ) : ℕ → V :=
  if ByteBits.test bits i then Function.update elems i (cfg.policy.destroy (elems i)) else elems

/-- `clear`. -/
def clear (cfg : ObjPoolConfig w V) (p : ObjPool w V) : ObjPool w V :=
  if p.usedCount = 0 then p
  else
    let p :=
      if cfg.needsDestroy then
        { p with
          elems := (List.range cfg.capacity.toNat).foldl (destroyUsed cfg p.usedBits) p.elems }
      else p
    resetFreeList cfg p

/-- `alloc`: the status, what it stores in `*out_elem` and the pool; `out` says whether `out_elem` is
not null. -/
def alloc (cfg : ObjPoolConfig w V) (p : ObjPool w V) (out : Bool) :
    (Status × Option (BitVec w)) × ObjPool w V :=
  if out = false then ((.nullPtr, none), p)
  else if p.freeCount = 0 then ((.full, none), p)
  else
    let p := { p with freeCount := p.freeCount - 1 }
    let index := (p.freeStack p.freeCount.toNat).toNat
    if cfg.capacity.toNat ≤ index then
      ((.invalid, none), { p with freeCount := p.freeCount + 1 })
    else
      ((.ok, some (elemAt cfg index)),
        { p with usedBits := ByteBits.set p.usedBits index, usedCount := p.usedCount + 1 })

/-- `index`: the status, and the index if it is ok. -/
def indexOf (cfg : ObjPoolConfig w V) (elem : BitVec w) : Status × ℕ :=
  if elem = 0 then (.nullPtr, 0)
  else if elem < cfg.storage then (.notFound, 0)
  else
    let offset := elem - cfg.storage
    if offset % cfg.elemSize ≠ 0 then (.notFound, 0)
    else
      let idx := offset / cfg.elemSize
      if cfg.capacity ≤ idx then (.notFound, 0) else (.ok, idx.toNat)

/-- `contains`. -/
def contains (cfg : ObjPoolConfig w V) (p : ObjPool w V) (elem : BitVec w) : Bool :=
  let (st, idx) := indexOf cfg elem
  if st ≠ .ok then false else ByteBits.test p.usedBits idx

/-- `free`. -/
def free (cfg : ObjPoolConfig w V) (p : ObjPool w V) (elem : BitVec w) : Status × ObjPool w V :=
  if elem = 0 then (.nullPtr, p)
  else
    let (indexSt, idx) := indexOf cfg elem
    if indexSt ≠ .ok then (indexSt, p)
    else if ByteBits.test p.usedBits idx = false then (.notFound, p)
    else
      let p :=
        if cfg.needsDestroy then
          { p with elems := Function.update p.elems idx (cfg.policy.destroy (p.elems idx)) }
        else p
      (.ok,
        { p with
          usedBits := ByteBits.clear p.usedBits idx
          freeStack := Function.update p.freeStack p.freeCount.toNat (BitVec.ofNat 32 idx)
          freeCount := p.freeCount + 1
          usedCount := p.usedCount - 1 })

/-- The copy in `alloc_copy` to the slot at an address. -/
def copyTo (cfg : ObjPoolConfig w V) (p : ObjPool w V) (elem : BitVec w) (src : V) :
    Status × ObjPool w V :=
  let idx := (indexOf cfg elem).2
  let (copySt, value) := cfg.policy.copyConstruct p.copies (p.elems idx) src
  (copySt, { p with elems := Function.update p.elems idx value, copies := p.copies + 1 })

/-- `alloc_copy`. -/
def allocCopy (cfg : ObjPoolConfig w V) (p : ObjPool w V) (src : V) :
    (Status × Option (BitVec w)) × ObjPool w V :=
  match alloc cfg p true with
  | ((.ok, some elem), p) =>
    let (copySt, p) := copyTo cfg p elem src
    if copySt ≠ .ok then ((copySt, none), (free cfg p elem).2)
    else ((.ok, some elem), p)
  | ((allocSt, _), p) => ((allocSt, none), p)

/-- The loop of `for_each` over the remaining slots: the visits, each with its visit index. -/
def visits (cfg : ObjPoolConfig w V) (bits : ℕ → BitVec 8) : List ℕ → ℕ → List (BitVec w × ℕ)
  | [], _ => []
  | i :: is, visitIndex =>
    if ByteBits.test bits i = false then visits cfg bits is visitIndex
    else (elemAt cfg i, visitIndex) :: visits cfg bits is (visitIndex + 1)

/-- `for_each` with a visitor that returns nothing. -/
def forEach (cfg : ObjPoolConfig w V) (p : ObjPool w V) : List (BitVec w × ℕ) :=
  visits cfg p.usedBits (List.range cfg.capacity.toNat) 0

/-- The pool after `init` over arrays with any contents. -/
def init (cfg : ObjPoolConfig w V) (freeStack : ℕ → BitVec 32) (usedBits : ℕ → BitVec 8)
    (elems : ℕ → V) : ObjPool w V :=
  resetFreeList cfg
    { freeStack, usedBits, usedCount := 0, freeCount := 0, elems, copies := 0 }

end ObjPool

/-- The pool, and the addresses it handed out and has not taken back. -/
structure PoolSession (w : ℕ) (V : Type*) where
  pool : ObjPool w V
  live : List (BitVec w)

namespace PoolSession

/-- A call of the interface. -/
inductive Call (w : ℕ) (V : Type*)
  | alloc (out : Bool)
  | allocCopy (src : V)
  | free (elem : BitVec w)
  | clear
  | forEach
  deriving DecidableEq, Repr

/-- What a call returns. -/
inductive Reply (w : ℕ)
  | alloc (result : Status) (elem : Option (BitVec w))
  | free (result : Status)
  | cleared
  | visited (visits : List (BitVec w × ℕ))
  deriving DecidableEq, Repr

/-- One call, with the live addresses after it. -/
def step (cfg : ObjPoolConfig w V) (s : PoolSession w V) :
    Call w V → Reply w × PoolSession w V
  | .alloc out =>
    let ((st, elem), pool) := s.pool.alloc cfg out
    (.alloc st elem, ⟨pool, elem.toList ++ s.live⟩)
  | .allocCopy src =>
    let ((st, elem), pool) := s.pool.allocCopy cfg src
    (.alloc st elem, ⟨pool, elem.toList ++ s.live⟩)
  | .free elem =>
    let (st, pool) := s.pool.free cfg elem
    (.free st, ⟨pool, if st = .ok then s.live.erase elem else s.live⟩)
  | .clear => (.cleared, ⟨s.pool.clear cfg, []⟩)
  | .forEach => (.visited (s.pool.forEach cfg), s)

end PoolSession

end Memkit
