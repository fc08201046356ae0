import Memkit.Boxes.LruCacheBox
import Memkit.Memory.NodeLayouts
import Memkit.Pools.HandlePool
import Memkit.Sets.Bitset

/-! # The storage of the containers

What `init_from_arena` of each container asks of an arena, in the order of the calls:

* **`StoragePart`** — the bytes and the alignment as the code computes them, and the bytes that the
  objects of the container take.
* **`Container`** — the test of the arguments, the parts, and the test of `init` of the core.

The containers come one after the other as in `containers/`, each with its own formula. -/

namespace Memkit

variable {w : ℕ}

/-- A block that a container asks for. -/
structure StoragePart (w : ℕ) where
  /-- The size as the code computes it. -/
  bytes : BitVec w
  alignment : BitVec w
  /-- The bytes that the objects in it take. -/
  used : ℕ
  /-- They are what is asked for, up to wrapping; blocks of no bytes are refused. -/
  exact : bytes ≠ 0 → bytes.toNat = used % 2 ^ w

namespace StoragePart

/-- A block of a caller of the arena. -/
def block (size alignment : BitVec w) : StoragePart w :=
  ⟨size, alignment, size.toNat, fun _ => (Nat.mod_eq_of_lt size.isLt).symm⟩

/-- `count` objects. -/
def array (count : BitVec w) (elem : TypeLayout w) : StoragePart w :=
  ⟨count * elem.size, elem.align, count.toNat * elem.size.toNat, fun _ => BitVec.toNat_mul count _⟩

/-- Wrapping the size of a record wraps the size of the pool. -/
theorem toNat_records {count stride : BitVec w} {size : ℕ} (h : stride.toNat = size % 2 ^ w) :
    (count * stride).toNat = count.toNat * size % 2 ^ w := by
  rw [BitVec.toNat_mul, h, Nat.mul_mod_mod]

/-- `count` records of a size that the code computes as `stride`. -/
def records (count stride alignment : BitVec w) (size : ℕ) (h : stride.toNat = size % 2 ^ w) :
    StoragePart w :=
  ⟨count * stride, alignment, count.toNat * size, fun _ => toNat_records h⟩

/-- A byte for every eight bits: a count that wraps on rounding up asks for no bytes. -/
theorem toNat_bytesFor {capacity : BitVec w} (h : Bitset.bytesFor capacity ≠ 0) :
    (Bitset.bytesFor capacity).toNat = (capacity.toNat + 7) / 8 % 2 ^ w := by
  have hlt := capacity.isLt
  have hne : (Bitset.bytesFor capacity).toNat ≠ 0 := fun hzero =>
    h (BitVec.eq_of_toNat_eq (hzero.trans BitVec.toNat_zero.symm))
  have hseven : (7 : BitVec w).toNat = 7 % 2 ^ w := BitVec.toNat_ofNat 7 w
  have height : (8 : BitVec w).toNat = 8 % 2 ^ w := BitVec.toNat_ofNat 8 w
  rw [Bitset.bytesFor, BitVec.toNat_udiv, BitVec.toNat_add, hseven, height] at hne ⊢
  rcases Nat.lt_or_ge 8 (2 ^ w) with hwide | hnarrow
  · rw [Nat.mod_eq_of_lt hwide, Nat.mod_eq_of_lt (by omega : 7 < 2 ^ w)] at hne ⊢
    rcases Nat.lt_or_ge (capacity.toNat + 7) (2 ^ w) with hfit | hwrap
    · rw [Nat.mod_eq_of_lt hfit, Nat.mod_eq_of_lt (by omega)]
    · -- what is left after wrapping is less than eight
      rw [Nat.mod_eq_sub_mod hwrap, Nat.mod_eq_of_lt (by omega)] at hne
      omega
  · -- eight is not a value of such a word, or wraps to zero
    have hdvd : 2 ^ w ∣ 8 := by
      have hle : w ≤ 3 := by
        rw [← Nat.pow_le_pow_iff_right (one_lt_two), show (2 : ℕ) ^ 3 = 8 from rfl]
        exact hnarrow
      exact pow_dvd_pow 2 hle
    rw [Nat.mod_eq_zero_of_dvd hdvd, Nat.div_zero] at hne
    exact absurd rfl hne

/-- A bit for each of `count`, over `storage_bytes` and `used_bits_bytes`. -/
def bits (count : BitVec w) : StoragePart w :=
  ⟨Bitset.bytesFor count, 1, (count.toNat + 7) / 8, toNat_bytesFor⟩

end StoragePart

/-! ## The sizes of the records -/

/-- Rounding up commutes with wrapping. -/
theorem toNat_alignUp_mod (value : BitVec w) {alignment : BitVec w} {k : ℕ} (hk : k < w)
    (hval : alignment.toNat = 2 ^ k) :
    (alignUp value alignment).toNat = ceilTo (2 ^ k) value.toNat % 2 ^ w := by
  rcases toNat_alignUp value hk hval with ⟨hlt, heq⟩ | ⟨hge, hzero⟩
  · rw [heq, Nat.mod_eq_of_lt hlt]
  · -- the multiple is the size of the address space
    have hle : ceilTo (2 ^ k) value.toNat ≤ 2 ^ w :=
      ceilTo_le (Nat.two_pow_pos k) value.isLt.le (pow_dvd_pow 2 hk.le)
    rw [hzero, le_antisymm hle hge, Nat.mod_self]
    exact BitVec.toNat_zero

theorem ceilTo_add_mul {a : ℕ} (ha : 0 < a) (n c : ℕ) :
    ceilTo a (n + a * c) = ceilTo a n + a * c := by
  have hsplit : n + a * c + (a - 1) = n + (a - 1) + a * c := by omega
  rw [ceilTo, ceilTo, hsplit, Nat.add_mul_div_left _ _ ha, Nat.add_mul, Nat.mul_comm c a]

theorem ceilTo_mod {k : ℕ} (hk : k ≤ w) (n : ℕ) :
    ceilTo (2 ^ k) (n % 2 ^ w) % 2 ^ w = ceilTo (2 ^ k) n % 2 ^ w := by
  obtain ⟨d, hd⟩ := pow_dvd_pow 2 hk
  have hsplit : n = n % 2 ^ w + 2 ^ k * (d * (n / 2 ^ w)) := by
    rw [← Nat.mul_assoc, ← hd]
    exact (Nat.mod_add_div n (2 ^ w)).symm
  conv_rhs => rw [hsplit, ceilTo_add_mul (Nat.two_pow_pos k), ← Nat.mul_assoc, ← hd]
  exact (Nat.add_mul_mod_self_left ..).symm

variable (pf : Platform w) (header elem key value : TypeLayout w)

theorem toNat_headedStride :
    (headedLayout header elem).stride.toNat = (header.size.toNat + elem.size.toNat) % 2 ^ w := by
  rw [headedLayout, TypeLayout.alignUp_size]
  exact BitVec.toNat_add ..

theorem toNat_pairStride (first : RecordPart) (keyOffset : BitVec w) :
    (pairLayout first keyOffset key value).stride.toNat =
      (keyOffset.toNat + key.size.toNat + value.size.toNat) % 2 ^ w := by
  rw [pairLayout, BitVec.toNat_add, BitVec.toNat_add, Nat.mod_add_mod]

theorem toNat_flatStride (kind : PolicyKind) :
    (FlatMapCore.layout pf kind key value).stride.toNat =
      (FlatMapCore.paddedKey pf key value + value.size.toNat) % 2 ^ w := by
  obtain ⟨k, hk, hval, -⟩ := value.exists_bytesAlignment pf.maxAlign
  rw [FlatMapCore.layout, BitVec.toNat_add, toNat_alignUp_mod key.size hk hval, Nat.mod_add_mod,
    FlatMapCore.paddedKey, hval]

/-- `cell_stride_bytes`: the sequence number, then the element. -/
def MpscQueue.cellStride (sequence elem : TypeLayout w) : BitVec w :=
  alignUp (sequence.size + elem.size) sequence.align

theorem toNat_cellStride (sequence : TypeLayout w) :
    (MpscQueue.cellStride sequence elem).toNat =
      ceilTo sequence.align.toNat (sequence.size.toNat + elem.size.toNat) % 2 ^ w := by
  obtain ⟨k, hk, hval⟩ := sequence.exists_power
  rw [MpscQueue.cellStride, toNat_alignUp_mod _ hk hval, BitVec.toNat_add, ceilTo_mod hk.le, hval]

theorem toNat_doubled (count : BitVec w) :
    (count * elem.size * 2).toNat = count.toNat * elem.size.toNat * 2 % 2 ^ w := by
  have htwo : (2 : BitVec w).toNat = 2 % 2 ^ w := BitVec.toNat_ofNat 2 w
  rw [BitVec.toNat_mul, BitVec.toNat_mul, htwo, Nat.mul_mod_mod, Nat.mod_mul_mod]

/-! ## The containers -/

/-- What `init_from_arena` does with an arena. -/
structure Container (w : ℕ) where
  /-- Whether the arguments pass the first test. -/
  admitted : Bool
  parts : List (StoragePart w)
  /-- Whether `init` of the core accepts the capacity. -/
  accepted : Bool

/-- The types that the containers store besides the elements. -/
structure StorageTypes (w : ℕ) extends Platform w where
  uint16 : TypeLayout w
  uint32 : TypeLayout w
  /-- `std::size_t`. -/
  sizeT : TypeLayout w
  /-- `std::atomic<std::size_t>`. -/
  atomicSizeT : TypeLayout w

namespace Container

variable (types : StorageTypes w)

/-- One part for a capacity that is not zero. -/
def single (capacity : BitVec w) (part : StoragePart w) : Container w :=
  ⟨capacity != 0, [part], true⟩

/-- `Bitset`. -/
def bitset (capacity : BitVec w) : Container w := single capacity (.bits capacity)

/-- `ByteRing`. -/
def byteRing (capacity : BitVec w) : Container w := single capacity (.block capacity 1)

/-- `Vector`. -/
def vector (initialCapacity : BitVec w) (elem : TypeLayout w) : Container w :=
  single initialCapacity (.array initialCapacity elem)

/-- `Stack`. -/
def stack (initialCapacity : BitVec w) (elem : TypeLayout w) : Container w :=
  single initialCapacity (.array initialCapacity elem)

/-- `Queue`. -/
def queue (capacity : BitVec w) (elem : TypeLayout w) : Container w :=
  single capacity (.array capacity elem)

/-- `Deque`. -/
def deque (initialCapacity : BitVec w) (elem : TypeLayout w) : Container w :=
  single initialCapacity (.array initialCapacity elem)

/-- `Ring`. -/
def ring (capacity : BitVec w) (elem : TypeLayout w) : Container w :=
  single capacity (.array capacity elem)

/-- `RingLog`. -/
def ringLog (capacity : BitVec w) (record : TypeLayout w) : Container w :=
  single capacity (.array capacity record)

/-- `PQueue`: a capacity of zero becomes one. -/
def pqueue (initialCapacity : BitVec w) (elem : TypeLayout w) : Container w :=
  let initialCapacity := if initialCapacity = 0 then 1 else initialCapacity
  ⟨true, [.array initialCapacity elem], true⟩

/-- `List`: `pool_bytes` for nodes that are as aligned as their header and their element. -/
def list (nodeCapacity : BitVec w) (elem : TypeLayout w) (nodeAlign : BitVec w) : Container w :=
  let header := listNodeHeader types.toPlatform
  single nodeCapacity
    (.records nodeCapacity (ListCore.layout types.toPlatform elem).stride nodeAlign
      (header.size.toNat + elem.size.toNat) (toNat_headedStride header elem))

/-- `DList`. -/
def dlist (nodeCapacity : BitVec w) (elem : TypeLayout w) (nodeAlign : BitVec w) : Container w :=
  let header := dlistNodeHeader types.toPlatform
  single nodeCapacity
    (.records nodeCapacity (DListCore.layout types.toPlatform elem).stride nodeAlign
      (header.size.toNat + elem.size.toNat) (toNat_headedStride header elem))

/-- `BTree`: only with `fixed_capacity` the nodes are allocated in advance. -/
def btree (capacity : BitVec w) (fixedCapacity : Bool) (elem : TypeLayout w) : Container w :=
  let header := btreeNodeHeader types.toPlatform
  if fixedCapacity then
    single capacity
      (.records capacity (BTreeMapCore.layout types.toPlatform elem).stride types.maxAlign
        (header.size.toNat + elem.size.toNat) (toNat_headedStride header elem))
  else ⟨true, [], true⟩

/-- `DoubleBuffer`: two slots. -/
def doubleBuffer (slotCapacity : BitVec w) (elem : TypeLayout w) : Container w :=
  single slotCapacity
    ⟨slotCapacity * elem.size * 2, elem.align, slotCapacity.toNat * elem.size.toNat * 2,
      fun _ => toNat_doubled elem slotCapacity⟩

/-- `FlatMap`. -/
def flatMap (capacity : BitVec w) (key value : TypeLayout w) : Container w :=
  let pf := types.toPlatform
  single capacity
    (.records capacity (FlatMapCore.layout pf .typed key value).stride types.maxAlign
      (FlatMapCore.paddedKey pf key value + value.size.toNat)
      (toNat_flatStride pf key value .typed))

/-- `HandlePool`: the core accepts as many slots as an index can name. -/
def handlePool (capacity : BitVec w) (elem : TypeLayout w) : Container w where
  admitted := capacity != 0
  parts := [.array capacity elem, .array capacity types.uint16, .array capacity types.uint32]
  accepted := decide ((capacity - 1).toNat ≤ HandlePool.indexMask.toNat)

/-- `ObjPool`. -/
def objPool (capacity : BitVec w) (elem : TypeLayout w) : Container w where
  admitted := capacity != 0
  parts := [.array capacity elem, .array capacity types.uint32, .bits capacity]
  accepted := true

/-- `HashMap`, over `init_from_arena` of the core; no buckets become the default. -/
def hashMap (initialBuckets : BitVec w) (strategy : MapStrategy) (key value : TypeLayout w) :
    Container w :=
  let initialBuckets := if initialBuckets = 0 then defaultBuckets w else initialBuckets
  let keyOffset := alignUp 1 (key.bytesAlignment types.maxAlign)
  match strategy with
  | .chaining => ⟨true, [.array initialBuckets types.pointer], true⟩
  | .openAddressing =>
    ⟨true,
      [.records initialBuckets (HashMapMapCore.slotLayout types.toPlatform key value).stride
        keyOffset (keyOffset.toNat + key.size.toNat + value.size.toNat)
        (toNat_pairStride key value _ keyOffset)],
      true⟩

/-- `LruCache`; no buckets become the default. -/
def lruCache (capacity bucketCount : BitVec w) (key value : TypeLayout w) : Container w :=
  let header := lrucacheEntryHeader types.toPlatform
  let headerSize := alignUp header.size header.align
  let bucketCount :=
    if bucketCount = 0 then LruBoxConfig.defaultBucketCount capacity else bucketCount
  { admitted := capacity != 0
    parts :=
      [.records capacity (LruCacheMapCore.layout types.toPlatform key value).stride types.maxAlign
        (headerSize.toNat + key.size.toNat + value.size.toNat)
        (toNat_pairStride key value _ headerSize),
      .array bucketCount types.pointer]
    accepted := true }

/-- `MpscQueue`. -/
def mpscQueue (capacityPow2 : BitVec w) (elem : TypeLayout w) : Container w where
  admitted := decide (2 ≤ capacityPow2.toNat) && isPowerOfTwo capacityPow2
  parts :=
    [.records capacityPow2 (MpscQueue.cellStride types.atomicSizeT elem) types.atomicSizeT.align
      (ceilTo types.atomicSizeT.align.toNat (types.atomicSizeT.size.toNat + elem.size.toNat))
      (toNat_cellStride elem types.atomicSizeT)]
  accepted := true

/-- `SparseSet`: the dense and the sparse array. -/
def sparseSet (maxId : BitVec w) : Container w where
  admitted := maxId != 0
  parts := [.array maxId types.sizeT, .array maxId types.sizeT]
  accepted := true

/-- `SpscQueue`. -/
def spscQueue (capacityPow2 : BitVec w) (elem : TypeLayout w) : Container w where
  admitted := decide (2 ≤ capacityPow2.toNat) && isPowerOfTwo capacityPow2
  parts := [.array capacityPow2 elem]
  accepted := true

end Container

end Memkit
