import Memkit.Foundations.Transition
import Memkit.Core.Status

/-! # The handle pool

`detail/handle_pool_core.hpp`: fixed slots addressed by 32-bit handles. The low half of a handle is
the slot index, the high half a generation stamp that the pool compares with the slot's current
one. The index fits sixteen bits because `init` bounds the capacity.

* **`HandlePool`** — the fields of `handle_pool_core`, with the two arrays as functions on ℕ, so
  that a write past the capacity is a write to memory behind the array.
* **`Session`** — the pool together with the handles its callers hold, which is what validity is
  compared with. -/

namespace Memkit

variable {w : ℕ}

/-- `handle_t`. -/
abbrev Handle := BitVec 32

/-- The data members of `handle_pool_core`. -/
structure HandlePool (w : ℕ) where
  /-- `generations_`. -/
  generations : ℕ → BitVec 16
  /-- `free_stack_`. -/
  freeStack : ℕ → BitVec 32
  /-- `capacity_`. -/
  capacity : BitVec w
  /-- `elem_size_`. -/
  elemSize : BitVec w
  /-- `live_count_`. -/
  liveCount : BitVec w
  /-- `free_count_`. -/
  freeCount : BitVec w

namespace HandlePool

/-- `invalid_handle`. -/
def invalidHandle : Handle := 0

/-- `index_mask`. -/
def indexMask : BitVec 32 := (1 <<< 16) - 1

/-- `make_handle`. -/
def makeHandle (index generation : BitVec 16) : Handle :=
  (generation.setWidth 32 <<< 16) ||| index.setWidth 32

/-- `handle_index`. -/
def handleIndex (handle : Handle) : BitVec 16 := (handle &&& indexMask).setWidth 16

/-- `handle_generation`. -/
def handleGeneration (handle : Handle) : BitVec 16 := (handle >>> 16).setWidth 16

/-- One round of the loop of `reset_free_list`. -/
def resetSlot (p : HandlePool w) (i : ℕ) : HandlePool w :=
  { p with
    generations := Function.update p.generations i 0
    freeStack :=
      Function.update p.freeStack i ((p.capacity - 1 - BitVec.ofNat w i).setWidth 32) }

/-- `reset_free_list`. -/
def resetFreeList (p : HandlePool w) : HandlePool w :=
  { (List.range p.capacity.toNat).foldl resetSlot p with
    freeCount := p.capacity
    liveCount := 0 }

/-- `init` over arrays with contents `generations` and `freeStack`; `hasStorage` says that none of
the three pointers is null. -/
def init (hasStorage : Bool) (generations : ℕ → BitVec 16) (freeStack : ℕ → BitVec 32)
    (capacity elemSize : BitVec w) : Except Status (HandlePool w) :=
  if hasStorage = false ∨ capacity = 0 ∨ elemSize = 0 then .error .invalid
  else if indexMask.toNat < (capacity - 1).toNat then .error .invalid
  else
    .ok (resetFreeList
      { generations, freeStack, capacity, elemSize, liveCount := 0, freeCount := capacity })

/-- The byte offset of `slot_ptr` from `storage_`. -/
def slotPtr (p : HandlePool w) (index : BitVec 32) : BitVec w := index.setWidth w * p.elemSize

/-- What a call returns: its status or answer, and the out-parameters it writes. -/
inductive Reply (w : ℕ)
  | acquire (result : Status) (outPtr : Option (BitVec w)) (outHandle : Handle)
  | release (result : Status)
  | get (result : Status) (outPtr : Option (BitVec w))
  | valid (answer : Bool)
  deriving DecidableEq, Repr

/-- `acquire`; `hasOuts` says that neither out-parameter is null. -/
def acquire (p : HandlePool w) (hasOuts : Bool) : Reply w × HandlePool w :=
  if hasOuts = false then (.acquire .nullPtr none invalidHandle, p)
  else if p.freeCount = 0 then (.acquire .full none invalidHandle, p)
  else
    let p := { p with freeCount := p.freeCount - 1 }
    let index := p.freeStack p.freeCount.toNat
    if p.capacity.toNat ≤ index.toNat then (.acquire .invalid none invalidHandle, p)
    else
      let p :=
        if p.generations index.toNat = 0 then
          { p with generations := Function.update p.generations index.toNat 1 }
        else p
      (.acquire .ok (some (p.slotPtr index))
          (makeHandle (index.setWidth 16) (p.generations index.toNat)),
        { p with liveCount := p.liveCount + 1 })

/-- The test that `release`, `get` and `valid` share. -/
def stampMatches (p : HandlePool w) (handle : Handle) : Bool :=
  (handleIndex handle).toNat < p.capacity.toNat &&
    p.generations (handleIndex handle).toNat == handleGeneration handle

/-- `bump_generation`. -/
def bumpGeneration (p : HandlePool w) (index : BitVec 16) : HandlePool w :=
  if p.generations index.toNat = 0xFFFF then
    { p with generations := Function.update p.generations index.toNat 1 }
  else
    { p with
      generations := Function.update p.generations index.toNat (p.generations index.toNat + 1) }

/-- `release`. -/
def release (p : HandlePool w) (handle : Handle) : Reply w × HandlePool w :=
  if handle = invalidHandle then (.release .invalid, p)
  else if p.stampMatches handle = false then (.release .invalid, p)
  else
    let p := p.bumpGeneration (handleIndex handle)
    (.release .ok,
      { p with
        freeStack :=
          Function.update p.freeStack p.freeCount.toNat ((handleIndex handle).setWidth 32)
        freeCount := p.freeCount + 1
        liveCount := p.liveCount - 1 })

/-- `get`; `hasOut` says that `out_ptr` is not null. -/
def get (p : HandlePool w) (handle : Handle) (hasOut : Bool) : Reply w :=
  if hasOut = false then .get .nullPtr none
  else if handle = invalidHandle then .get .invalid none
  else if p.stampMatches handle = false then .get .invalid none
  else .get .ok (some (p.slotPtr ((handleIndex handle).setWidth 32)))

/-- `valid`. -/
def valid (p : HandlePool w) (handle : Handle) : Bool :=
  handle != invalidHandle && p.stampMatches handle

/-- A call of the pool's interface. -/
inductive Call
  | acquire (hasOuts : Bool)
  | release (handle : Handle)
  | get (handle : Handle) (hasOut : Bool)
  | valid (handle : Handle)
  deriving DecidableEq, Repr

/-- Dispatch a call. -/
def call (p : HandlePool w) : Call → Reply w × HandlePool w
  | .acquire hasOuts => p.acquire hasOuts
  | .release handle => p.release handle
  | .get handle hasOut => (p.get handle hasOut, p)
  | .valid handle => (.valid (p.valid handle), p)

/-! ## Handles -/

/-- A handle is its generation and its index side by side. -/
theorem toNat_makeHandle (index generation : BitVec 16) :
    (makeHandle index generation).toNat = 2 ^ 16 * generation.toNat + index.toNat := by
  have hg := generation.isLt
  have hi := index.isLt
  rw [makeHandle, BitVec.toNat_or, BitVec.toNat_shiftLeft, BitVec.toNat_setWidth,
    BitVec.toNat_setWidth, Nat.two_pow_add_eq_or_of_lt hi, Nat.shiftLeft_eq]
  congr 1 <;> omega

theorem toNat_handleIndex (handle : Handle) :
    (handleIndex handle).toNat = handle.toNat % 2 ^ 16 := by
  rw [handleIndex, BitVec.toNat_setWidth, BitVec.toNat_and]
  rw [show indexMask.toNat = 2 ^ 16 - 1 from rfl, Nat.and_two_pow_sub_one_eq_mod]
  omega

theorem toNat_handleGeneration (handle : Handle) :
    (handleGeneration handle).toNat = handle.toNat / 2 ^ 16 := by
  have hh := handle.isLt
  rw [handleGeneration, BitVec.toNat_setWidth, BitVec.toNat_ushiftRight,
    Nat.shiftRight_eq_div_pow]
  omega

@[simp] theorem handleIndex_makeHandle (index generation : BitVec 16) :
    handleIndex (makeHandle index generation) = index := by
  have hi := index.isLt
  apply BitVec.eq_of_toNat_eq
  rw [toNat_handleIndex, toNat_makeHandle]
  omega

@[simp] theorem handleGeneration_makeHandle (index generation : BitVec 16) :
    handleGeneration (makeHandle index generation) = generation := by
  have hi := index.isLt
  apply BitVec.eq_of_toNat_eq
  rw [toNat_handleGeneration, toNat_makeHandle]
  omega

/-- Index and generation determine the handle. -/
theorem handle_ext {h h' : Handle} (hindex : handleIndex h = handleIndex h')
    (hgen : handleGeneration h = handleGeneration h') : h = h' := by
  have hmod := congrArg BitVec.toNat hindex
  have hdiv := congrArg BitVec.toNat hgen
  rw [toNat_handleIndex, toNat_handleIndex] at hmod
  rw [toNat_handleGeneration, toNat_handleGeneration] at hdiv
  apply BitVec.eq_of_toNat_eq
  omega

/-- A handle with a stamp is not the invalid one. -/
theorem ne_invalidHandle {h : Handle} (hgen : handleGeneration h ≠ 0) : h ≠ invalidHandle := by
  rintro rfl
  exact hgen rfl

/-! ## The fresh pool -/

/-- Rounds of `reset_free_list` write the two arrays below their bound and nothing else. -/
theorem foldl_resetSlot (p : HandlePool w) (n : ℕ) :
    (List.range n).foldl resetSlot p =
      { p with
        generations := fun i => if i < n then 0 else p.generations i
        freeStack := fun i =>
          if i < n then (p.capacity - 1 - BitVec.ofNat w i).setWidth 32 else p.freeStack i } := by
  induction n with
  | zero => simp
  | succ n ih =>
    rw [List.range_succ, List.foldl_append, ih]
    simp only [List.foldl_cons, List.foldl_nil, resetSlot, HandlePool.mk.injEq, and_true]
    constructor
    · funext i
      by_cases hi : i = n
      · subst hi
        simp
      · rw [Function.update_of_ne hi]
        simp only [show i < n + 1 ↔ i < n by omega]
    · funext i
      by_cases hi : i = n
      · subst hi
        simp
      · rw [Function.update_of_ne hi]
        simp only [show i < n + 1 ↔ i < n by omega]

/-- What `init` leaves behind when it accepts: every slot free, from the last one down, with
generation zero. -/
theorem init_spec {hasStorage : Bool} {generations : ℕ → BitVec 16} {freeStack : ℕ → BitVec 32}
    {capacity elemSize : BitVec w} {p : HandlePool w}
    (h : init hasStorage generations freeStack capacity elemSize = .ok p) :
    0 < p.capacity.toNat ∧ p.capacity.toNat ≤ 2 ^ 16 ∧ p.freeCount = p.capacity ∧
      p.liveCount = 0 ∧ p.capacity = capacity ∧
      ∀ i < p.capacity.toNat,
        (p.freeStack i).toNat = p.capacity.toNat - 1 - i ∧ p.generations i = 0 := by
  unfold init at h
  split at h
  · cases h
  · rename_i hargs
    split at h
    · cases h
    · rename_i hbound
      cases h
      have hne : capacity ≠ 0 := fun h0 => hargs (.inr (.inl h0))
      have hpos : 0 < capacity.toNat := by
        rcases Nat.eq_zero_or_pos capacity.toNat with h0 | h0
        · exact absurd (BitVec.eq_of_toNat_eq (by simpa using h0)) hne
        · exact h0
      have hlt := capacity.isLt
      have hpred : (capacity - 1).toNat = capacity.toNat - 1 := by
        have hsucc := WrapCounter.toNat_pred hne
        omega
      have hmask : indexMask.toNat = 2 ^ 16 - 1 := rfl
      have hcap : capacity.toNat ≤ 2 ^ 16 := by omega
      simp only [resetFreeList, foldl_resetSlot]
      refine ⟨hpos, hcap, trivial, trivial, trivial, ?_⟩
      intro i hi
      have hword : (BitVec.ofNat w i).toNat = i := by
        rw [BitVec.toNat_ofNat, Nat.mod_eq_of_lt (hi.trans hlt)]
      refine ⟨?_, if_pos hi⟩
      rw [if_pos hi, BitVec.toNat_setWidth, BitVec.toNat_sub_of_le, hpred, hword]
      · exact Nat.mod_eq_of_lt (by omega)
      · rw [BitVec.le_def, hpred, hword]
        omega

/-! ## Sessions -/

/-- The pool and the handles that an `acquire` returned and no `release` took back since. -/
structure Session (w : ℕ) where
  pool : HandlePool w
  live : List Handle

/-- What a call and its reply do to the handles held. -/
def track (live : List Handle) : Call → Reply w → List Handle
  | .acquire _, .acquire .ok _ handle => handle :: live
  | .release handle, .release .ok => live.erase handle
  | _, _ => live

/-- One call, with the handles held after it. -/
def Session.call (s : Session w) (c : Call) : Reply w × Session w :=
  ((s.pool.call c).1, ⟨(s.pool.call c).2, track s.live c (s.pool.call c).1⟩)

/-- The slots on the free stack, bottom first. -/
def freeSlots (p : HandlePool w) : List ℕ :=
  (List.range p.freeCount.toNat).map fun i => (p.freeStack i).toNat

/-- The slot a handle names. -/
def slotOf (handle : Handle) : ℕ := (handleIndex handle).toNat

end HandlePool

end Memkit
