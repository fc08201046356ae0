import Memkit.Core.Status
import Memkit.Foundations.ByteBits
import Memkit.Foundations.Transition

/-! # Bit sets

`bitset_core` of `detail/bitset_core.hpp`: a set of numbers below `capacity`, one bit each. A call
may read another bit set, so that the state is a family of them.

* **`run`** — the operations on one bit set.
* **`IndexSet`** — a set of numbers below a bound, and the reference of the operations on it.
* **`call`** — a call on a bit set of the family, and on a set of the reference. -/

namespace Memkit

open ByteBits

variable {w : ℕ} {ι : Type*}

/-- The members of `bitset_core`. -/
structure Bitset (w : ℕ) where
  /-- What `storage_` points to; it is `none` if it is null. -/
  storage : Option (ℕ → BitVec 8)
  /-- `capacity_`. -/
  capacity : BitVec w
  /-- `storage_bytes_`. -/
  storageBytes : BitVec w

namespace Bitset

/-- A bit set that is not initialised. -/
def empty : Bitset w := ⟨none, 0, 0⟩

/-- `storage_bytes`. -/
def bytesFor (capacity : BitVec w) : BitVec w := (capacity + 7) / 8

/-- `tail_mask`. -/
def tailMask (capacity : BitVec w) : BitVec 8 :=
  let remainder := capacity.toNat % 8
  if remainder = 0 then 0xFF else (1 <<< remainder) - 1

/-- `popcount_byte`: the loop shifts the value out. -/
def popcountByte (value : BitVec 8) : ℕ :=
  if value = 0 then 0 else (value &&& 1).toNat + popcountByte (value >>> 1)
termination_by value.toNat
decreasing_by
  have hpos : 0 < value.toNat := by
    rw [Nat.pos_iff_ne_zero]
    intro hzero
    exact absurd (BitVec.eq_of_toNat_eq hzero) ‹_›
  rw [BitVec.toNat_ushiftRight, Nat.shiftRight_one]
  exact Nat.div_lt_self hpos Nat.one_lt_two

/-- `apply_tail_mask`. -/
def applyTailMask (b : Bitset w) (bits : ℕ → BitVec 8) : ℕ → BitVec 8 :=
  if b.storageBytes = 0 then bits
  else
    Function.update bits (b.storageBytes.toNat - 1)
      (bits (b.storageBytes.toNat - 1) &&& tailMask b.capacity)

/-- `clear`. -/
def clear (b : Bitset w) : Bitset w :=
  { b with storage := b.storage.map (overwrite b.storageBytes.toNat fun _ => 0) }

/-- `init`. -/
def init (b : Bitset w) (storage : Option (ℕ → BitVec 8)) (capacity : BitVec w) :
    Status × Bitset w :=
  match storage with
  | none => (.invalid, b)
  | some bits =>
    if capacity = 0 then (.invalid, b)
    else (.ok, clear ⟨some bits, capacity, bytesFor capacity⟩)

/-- `size`: the last byte is counted after the loop over the others. -/
def size (b : Bitset w) : BitVec w :=
  match b.storage with
  | none => 0
  | some bits =>
    if b.storageBytes = 0 then 0
    else
      let count := (List.range (b.storageBytes.toNat - 1)).foldl
        (fun count i => count + BitVec.ofNat w (popcountByte (bits i))) 0
      count + BitVec.ofNat w (popcountByte (bits (b.storageBytes.toNat - 1)))

/-- `test`. -/
def test (b : Bitset w) (index : ℕ) : Bool :=
  match b.storage with
  | none => false
  | some bits => if b.capacity.toNat ≤ index then false else ByteBits.test bits index

/-- `set`, `reset` and `toggle` are like this, with their own change of the byte. -/
def change (b : Bitset w) (index : ℕ) (f : (ℕ → BitVec 8) → ℕ → ℕ → BitVec 8) :
    Status × Bitset w :=
  match b.storage with
  | none => (.nullPtr, b)
  | some bits =>
    if b.capacity.toNat ≤ index then (.invalid, b)
    else (.ok, { b with storage := some (f bits index) })

/-- `set`. -/
def set (b : Bitset w) (index : ℕ) : Status × Bitset w := b.change index ByteBits.set

/-- `reset`. -/
def reset (b : Bitset w) (index : ℕ) : Status × Bitset w := b.change index ByteBits.clear

/-- `toggle`. -/
def toggle (b : Bitset w) (index : ℕ) : Status × Bitset w := b.change index ByteBits.toggle

/-- `assign`. -/
def assign (b : Bitset w) (value : Bool) (index : ℕ) : Status × Bitset w :=
  if value then b.set index else b.reset index

/-- Write the bytes, and mask the last one. -/
def rewrite (b : Bitset w) (bits source : ℕ → BitVec 8) : Bitset w :=
  { b with storage := some (b.applyTailMask (overwrite b.storageBytes.toNat source bits)) }

/-- `set_all`. -/
def setAll (b : Bitset w) : Status × Bitset w :=
  match b.storage with
  | none => (.nullPtr, b)
  | some bits => (.ok, b.rewrite bits fun _ => 0xFF)

/-- `complement`. -/
def complement (b : Bitset w) : Status × Bitset w :=
  match b.storage with
  | none => (.nullPtr, b)
  | some bits => (.ok, b.rewrite bits fun i => ~~~bits i)

/-- `combine_with`. -/
def combineWith (b other : Bitset w) (combine : BitVec 8 → BitVec 8 → BitVec 8) :
    Status × Bitset w :=
  match b.storage, other.storage with
  | some bits, some otherBits =>
    if b.capacity ≠ other.capacity then (.invalid, b)
    else (.ok, b.rewrite bits fun i => combine (bits i) (otherBits i))
  | _, _ => (.invalid, b)

/-- `union_with`. -/
def unionWith (b other : Bitset w) : Status × Bitset w := b.combineWith other (· ||| ·)

/-- `intersect_with`. -/
def intersectWith (b other : Bitset w) : Status × Bitset w := b.combineWith other (· &&& ·)

/-- `xor_with`. -/
def xorWith (b other : Bitset w) : Status × Bitset w := b.combineWith other (· ^^^ ·)

/-- `copy_from`. -/
def copyFrom (b src : Bitset w) : Status × Bitset w := b.combineWith src fun _ byte => byte

/-- `equal`; `memcmp` compares the bytes. -/
def equal (b other : Bitset w) : Bool :=
  match b.storage, other.storage with
  | some bits, some otherBits =>
    decide (b.capacity = other.capacity) &&
      decide (∀ i < b.storageBytes.toNat, bits i = otherBits i)
  | _, _ => false

/-- `load_bytes`; `bytes` is none if the pointer is null, and `bytes_len` is its length. -/
def loadBytes (b : Bitset w) (bytes : Option (List (BitVec 8))) : Status × Bitset w :=
  match b.storage, bytes with
  | some bits, some bytes =>
    if bytes.length < b.storageBytes.toNat then (.invalid, b)
    else (.ok, b.rewrite bits fun i => bytes.getD i 0)
  | _, _ => (.nullPtr, b)

/-- `store_bytes`, with what is in the buffer afterwards. -/
def storeBytes (b : Bitset w) (bytes : Option (List (BitVec 8))) :
    Status × Option (List (BitVec 8)) :=
  match b.storage, bytes with
  | some bits, some bytes =>
    if bytes.length < b.storageBytes.toNat then (.invalid, some bytes)
    else
      (.ok, some ((List.range b.storageBytes.toNat).map bits ++ bytes.drop b.storageBytes.toNat))
  | _, bytes => (.nullPtr, bytes)

/-- `find_from`, with what `out_index` refers to afterwards. -/
def findFrom (b : Bitset w) (startIndex : ℕ) (wantSet : Bool) (out : ℕ) : Status × ℕ :=
  if b.storage.isNone then (.nullPtr, out)
  else if b.capacity.toNat ≤ startIndex then (.notFound, out)
  else
    match (List.range' startIndex (b.capacity.toNat - startIndex)).find?
      fun index => b.test index = wantSet with
    | some index => (.ok, index)
    | none => (.notFound, out)

/-- The loop of `for_each` over the indexes that are left, with those that are visited. -/
def forEachLoop (b : Bitset w) (visit : ℕ → Status) : List ℕ → Status × List ℕ
  | [] => (.ok, [])
  | index :: indexes =>
    if b.test index then
      if visit index = .ok then
        let (st, visited) := forEachLoop b visit indexes
        (st, index :: visited)
      else (visit index, [index])
    else forEachLoop b visit indexes

/-- `for_each`; a visitor that returns nothing is one that always returns ok. -/
def forEach (b : Bitset w) (visit : ℕ → Status) : Status × List ℕ :=
  if b.storage.isNone then (.nullPtr, []) else forEachLoop b visit (List.range b.capacity.toNat)

/-- An operation; the bit sets that it reads are named. -/
inductive Op (ι : Type*)
  | set (index : ℕ)
  | reset (index : ℕ)
  | toggle (index : ℕ)
  | assign (value : Bool) (index : ℕ)
  | setAll
  | clear
  | complement
  | unionWith (other : ι)
  | intersectWith (other : ι)
  | xorWith (other : ι)
  | copyFrom (src : ι)
  | loadBytes (bytes : Option (List (BitVec 8)))
  | test (index : ℕ)
  | size
  | equal (other : ι)
  | findFirstSet (startIndex out : ℕ)
  | findFirstClear (startIndex out : ℕ)
  | forEach (visit : ℕ → Status)
  | storeBytes (bytes : Option (List (BitVec 8)))

/-- What an operation returns, and what it writes to the memory of the caller. -/
inductive Reply
  | done
  | status (result : Status)
  | test (result : Bool)
  | count (result : ℕ)
  | found (result : Status) (index : ℕ)
  | visited (result : Status) (indexes : List ℕ)
  | bytes (result : Status) (bytes : Option (List (BitVec 8)))
  deriving DecidableEq, Repr

/-- Answer with a status. -/
def answer {α : Type*} (r : Status × α) : Reply × α := (.status r.1, r.2)

/-- Dispatch an operation. -/
def run (s : ι → Bitset w) (b : Bitset w) : Op ι → Reply × Bitset w
  | .set index => answer (b.set index)
  | .reset index => answer (b.reset index)
  | .toggle index => answer (b.toggle index)
  | .assign value index => answer (b.assign value index)
  | .setAll => answer b.setAll
  | .clear => (.done, b.clear)
  | .complement => answer b.complement
  | .unionWith other => answer (b.unionWith (s other))
  | .intersectWith other => answer (b.intersectWith (s other))
  | .xorWith other => answer (b.xorWith (s other))
  | .copyFrom src => answer (b.copyFrom (s src))
  | .loadBytes bytes => answer (b.loadBytes bytes)
  | .test index => (.test (b.test index), b)
  | .size => (.count b.size.toNat, b)
  | .equal other => (.test (b.equal (s other)), b)
  | .findFirstSet startIndex out =>
    (.found (b.findFrom startIndex true out).1 (b.findFrom startIndex true out).2, b)
  | .findFirstClear startIndex out =>
    (.found (b.findFrom startIndex false out).1 (b.findFrom startIndex false out).2, b)
  | .forEach visit => (.visited (b.forEach visit).1 (b.forEach visit).2, b)
  | .storeBytes bytes => (.bytes (b.storeBytes bytes).1 (b.storeBytes bytes).2, b)

/-- A call: an operation on one bit set of the family. -/
def call [DecidableEq ι] (s : ι → Bitset w) (c : ι × Op ι) : Reply × (ι → Bitset w) :=
  let r := run s (s c.1) c.2
  (r.1, Function.update s c.1 r.2)

/-- What a bit set is initialised with. -/
structure Config (w : ℕ) where
  /-- What the storage holds before. -/
  memory : ℕ → BitVec 8
  capacity : BitVec w
  capacity_ne : capacity ≠ 0

/-- The bit sets of a family, of which some are initialised. -/
def start (config : ι → Option (Config w)) (i : ι) : Bitset w :=
  match config i with
  | none => empty
  | some cfg => (init empty (some cfg.memory) cfg.capacity).2

end Bitset

/-! ## The reference -/

/-- A set of numbers below a bound. -/
@[ext]
structure IndexSet where
  bound : ℕ
  members : Finset ℕ
  below : ∀ i ∈ members, i < bound

namespace IndexSet

open Bitset

/-- The numbers of a set that are below the bound. -/
def cut (bound : ℕ) (s : Finset ℕ) : IndexSet :=
  ⟨bound, s.filter (· < bound), fun _ hi => (Finset.mem_filter.mp hi).2⟩

@[simp] theorem bound_cut (bound : ℕ) (s : Finset ℕ) : (cut bound s).bound = bound := rfl

@[simp] theorem members_cut (bound : ℕ) (s : Finset ℕ) :
    (cut bound s).members = s.filter (· < bound) := rfl

/-- Add, remove or flip one number. -/
def change (m : Option IndexSet) (index : ℕ) (f : Finset ℕ → Finset ℕ) :
    Status × Option IndexSet :=
  match m with
  | none => (.nullPtr, none)
  | some m =>
    if m.bound ≤ index then (.invalid, some m) else (.ok, some (cut m.bound (f m.members)))

/-- Replace the set. -/
def replace (m : Option IndexSet) (f : IndexSet → Finset ℕ) : Status × Option IndexSet :=
  match m with
  | none => (.nullPtr, none)
  | some m => (.ok, some (cut m.bound (f m)))

/-- Combine two sets with the same bound. -/
def combine (m other : Option IndexSet) (f : Finset ℕ → Finset ℕ → Finset ℕ) :
    Status × Option IndexSet :=
  match m, other with
  | some m, some other =>
    if m.bound ≠ other.bound then (.invalid, some m)
    else (.ok, some (cut m.bound (f m.members other.members)))
  | m, _ => (.invalid, m)

/-- Replace the set by the bits of some bytes. -/
def load (m : Option IndexSet) (bytes : Option (List (BitVec 8))) : Status × Option IndexSet :=
  match m, bytes with
  | some m, some bytes =>
    if bytes.length < (m.bound + 7) / 8 then (.invalid, some m)
    else (.ok, some (cut m.bound (ByteBits.members (fun i => bytes.getD i 0) m.bound)))
  | m, _ => (.nullPtr, m)

/-- Write the bytes of the set. -/
def store (m : Option IndexSet) (bytes : Option (List (BitVec 8))) :
    Status × Option (List (BitVec 8)) :=
  match m, bytes with
  | some m, some bytes =>
    let n := (m.bound + 7) / 8
    if bytes.length < n then (.invalid, some bytes)
    else
      (.ok, some ((List.range n).map (encode fun i => decide (i ∈ m.members)) ++ bytes.drop n))
  | _, bytes => (.nullPtr, bytes)

/-- The least number from a start that is a member, or that is not. -/
def least (m : Option IndexSet) (startIndex : ℕ) (wantSet : Bool) (out : ℕ) : Status × ℕ :=
  match m with
  | none => (.nullPtr, out)
  | some m =>
    match ((Finset.Ico startIndex m.bound).filter fun i => decide (i ∈ m.members) = wantSet).min with
    | (index : ℕ) => (.ok, index)
    | ⊤ => (.notFound, out)

/-- Visit numbers until the visitor stops. -/
def visitAll (visit : ℕ → Status) : List ℕ → Status × List ℕ
  | [] => (.ok, [])
  | i :: is =>
    if visit i = .ok then ((visitAll visit is).1, i :: (visitAll visit is).2) else (visit i, [i])

/-- Visit the members in increasing order. -/
def visit (m : Option IndexSet) (visit : ℕ → Status) : Status × List ℕ :=
  match m with
  | none => (.nullPtr, [])
  | some m => visitAll visit ((List.range m.bound).filter (· ∈ m.members))

/-- Whether both sets exist and are equal. -/
def equal (m other : Option IndexSet) : Bool :=
  match m, other with
  | some m, some other => decide (m.bound = other.bound ∧ m.members = other.members)
  | _, _ => false

/-- Dispatch an operation. -/
def run (s : ι → Option IndexSet) (m : Option IndexSet) : Op ι → Reply × Option IndexSet
  | .set index => answer (change m index (insert index))
  | .reset index => answer (change m index (·.erase index))
  | .toggle index => answer (change m index (symmDiff {index}))
  | .assign value index =>
    answer (change m index fun s => if value then insert index s else s.erase index)
  | .setAll => answer (replace m fun m => Finset.range m.bound)
  | .clear => (.done, m.map fun m => cut m.bound ∅)
  | .complement => answer (replace m fun m => Finset.range m.bound \ m.members)
  | .unionWith other => answer (combine m (s other) (· ∪ ·))
  | .intersectWith other => answer (combine m (s other) (· ∩ ·))
  | .xorWith other => answer (combine m (s other) symmDiff)
  | .copyFrom src => answer (combine m (s src) fun _ s => s)
  | .loadBytes bytes => answer (load m bytes)
  | .test index => (.test (m.any fun m => decide (index ∈ m.members)), m)
  | .size => (.count (m.elim 0 fun m => m.members.card), m)
  | .equal other => (.test (equal m (s other)), m)
  | .findFirstSet startIndex out =>
    (.found (least m startIndex true out).1 (least m startIndex true out).2, m)
  | .findFirstClear startIndex out =>
    (.found (least m startIndex false out).1 (least m startIndex false out).2, m)
  | .forEach f => (.visited (visit m f).1 (visit m f).2, m)
  | .storeBytes bytes => (.bytes (store m bytes).1 (store m bytes).2, m)

/-- A call: an operation on one set of the family. -/
def call [DecidableEq ι] (s : ι → Option IndexSet) (c : ι × Op ι) :
    Reply × (ι → Option IndexSet) :=
  let r := run s (s c.1) c.2
  (r.1, Function.update s c.1 r.2)

/-- The empty sets of a family. -/
def start (config : ι → Option (Config w)) (i : ι) : Option IndexSet :=
  (config i).map fun cfg => cut cfg.capacity.toNat ∅

end IndexSet

end Memkit
