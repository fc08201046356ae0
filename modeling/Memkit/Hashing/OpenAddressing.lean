import Memkit.Foundations.Transition
import Memkit.Core.ElementPolicy

/-! # The open-addressing hash map

`detail/hashmap_map_core.hpp` with `strategy_ == open_addressing`: a circular array of slots,
probed linearly from the home slot of a key, with tombstones for removed entries and growth by
rehashing. Slot numbers are naturals below `bucket_count_`; `bucket_count_` and `size_` are machine
words, since the growth test multiplies them.

* **`HashMapConfig`** — the policies, the growth flag and the allocator.
* **`OpenMap`** — the slots and the two counters, with the number of callback and allocator calls
  made so far, which the callbacks may depend on. -/

namespace Memkit

variable {w : ℕ} {K V : Type*}

/-- `hashmap_slot_state`. -/
inductive SlotState
  | empty
  | deleted
  | occupied
  deriving DecidableEq, Repr

/-- One slot: its state byte, its key and its value. -/
structure Slot (K V : Type*) where
  state : SlotState
  key : K
  value : V

/-- The members of `hashmap_map_core` that no operation changes. -/
structure HashMapConfig (w : ℕ) (K V : Type*) where
  /-- `key_policy_`. -/
  keyPolicy : ElementPolicy K
  /-- `value_policy_`. -/
  valuePolicy : ElementPolicy V
  /-- `hash_policy_`. -/
  hashPolicy : HashPolicy w K
  /-- Whether `policy_` has the `growable` bit. -/
  growable : Bool
  /-- `slot_stride_`. -/
  slotStride : BitVec w
  /-- `alloc_raw`: the status of the `n`-th request, for the given number of bytes. -/
  allocRaw : ℕ → BitVec w → Status
  /-- What a slot of freshly zeroed memory holds beside its state byte. -/
  zeroKey : K
  zeroValue : V

/-- The members of `hashmap_map_core` that the operations change. -/
structure OpenMap (w : ℕ) (K V : Type*) where
  /-- `slots_`. -/
  slots : ℕ → Slot K V
  /-- `bucket_count_`. -/
  bucketCount : BitVec w
  /-- `size_`. -/
  size : BitVec w
  /-- Copy callbacks called so far. -/
  copies : ℕ
  /-- Allocations requested so far. -/
  allocs : ℕ

/-! ## Growth policy -/

/-- `default_buckets`. -/
def defaultBuckets (w : ℕ) : BitVec w := 8

/-- `load_num`. -/
def loadNum (w : ℕ) : BitVec w := 3

/-- `load_den`. -/
def loadDen (w : ℕ) : BitVec w := 4

/-- `should_grow`: the products are machine products. -/
def shouldGrow (growable : Bool) (bucketCount size : BitVec w) : Bool :=
  growable && decide (bucketCount * loadNum w ≤ (size + 1) * loadDen w)

/-- `grow_bucket_count`; `BitVec.allOnes w` is `SIZE_MAX`. -/
def growBucketCount (current : BitVec w) : BitVec w :=
  if current = 0 then defaultBuckets w
  else if BitVec.allOnes w / 2 < current then current
  else current * 2

namespace OpenMap

/-- Overwrite one slot. -/
def setSlot (s : OpenMap w K V) (index : ℕ) (slot : Slot K V) : OpenMap w K V :=
  { s with slots := Function.update s.slots index slot }

/-- `bucket_count_` as a number. -/
def buckets (s : OpenMap w K V) : ℕ := s.bucketCount.toNat

/-- The loop of `open_probe`: `probes` rounds are left, `index` is the slot to look at and
`firstDeleted` the first tombstone met (`none` for `SIZE_MAX`). -/
def probeLoop (equal : K → K → Bool) (slots : ℕ → Slot K V) (bucketCount : ℕ) (key : K)
    (forInsert : Bool) : ℕ → ℕ → Option ℕ → SlotState × ℕ
  | 0, index, firstDeleted =>
    (.occupied, if forInsert then firstDeleted.getD index else index)
  | probes + 1, index, firstDeleted =>
    match (slots index).state with
    | .empty => (.empty, if forInsert then firstDeleted.getD index else index)
    | .deleted =>
      probeLoop equal slots bucketCount key forInsert probes ((index + 1) % bucketCount)
        (if forInsert && firstDeleted.isNone then some index else firstDeleted)
    | .occupied =>
      if equal (slots index).key key then (.occupied, index)
      else
        probeLoop equal slots bucketCount key forInsert probes ((index + 1) % bucketCount)
          firstDeleted

/-- The home slot of a key: `hash(key) % bucket_count_`. -/
def home (cfg : HashMapConfig w K V) (bucketCount : ℕ) (key : K) : ℕ :=
  (cfg.hashPolicy.hash key).toNat % bucketCount

/-- `open_probe`. -/
def openProbe (cfg : HashMapConfig w K V) (s : OpenMap w K V) (key : K) (forInsert : Bool) :
    SlotState × ℕ :=
  probeLoop cfg.hashPolicy.equal s.slots s.buckets key forInsert s.buckets (home cfg s.buckets key)
    none

/-- `open_put`. -/
def openPut (cfg : HashMapConfig w K V) (s : OpenMap w K V) (key : K) (value : V) :
    Status × OpenMap w K V :=
  let (state, index) := openProbe cfg s key true
  let slot := s.slots index
  if state = .occupied then
    if cfg.hashPolicy.equal slot.key key then
      let s := { s with copies := s.copies + 1 }.setSlot index
        { slot with value := cfg.valuePolicy.copyAssign s.copies slot.value value }
      (.ok, s)
    else (.full, s)
  else
    let (keySt, newKey) := cfg.keyPolicy.copyConstruct s.copies slot.key key
    let slot := { slot with key := newKey }
    let s := { s with copies := s.copies + 1 }.setSlot index slot
    if keySt ≠ .ok then (keySt, s)
    else
      let (valueSt, newValue) := cfg.valuePolicy.copyConstruct s.copies slot.value value
      let slot := { slot with value := newValue }
      let s := { s with copies := s.copies + 1 }
      if valueSt ≠ .ok then
        (valueSt, s.setSlot index
          { slot with key := cfg.keyPolicy.destroy slot.key, state := .empty })
      else
        (.ok, { s.setSlot index { slot with state := .occupied } with size := s.size + 1 })

/-- `open_get`: the status and the contents of `out_value` afterwards. -/
def openGet (cfg : HashMapConfig w K V) (s : OpenMap w K V) (key : K) (out : V) :
    (Status × V) × OpenMap w K V :=
  let (state, index) := openProbe cfg s key false
  if state ≠ .occupied then ((.notFound, out), s)
  else
    ((.ok, cfg.valuePolicy.copyAssign s.copies out (s.slots index).value),
      { s with copies := s.copies + 1 })

/-- `open_remove`. -/
def openRemove (cfg : HashMapConfig w K V) (s : OpenMap w K V) (key : K) :
    Status × OpenMap w K V :=
  let (state, index) := openProbe cfg s key false
  if state ≠ .occupied then (.notFound, s)
  else
    let slot := s.slots index
    (.ok,
      { s.setSlot index
          { state := .deleted
            key := cfg.keyPolicy.destroy slot.key
            value := cfg.valuePolicy.destroy slot.value } with
        size := s.size - 1 })

/-- `open_contains`. -/
def openContains (cfg : HashMapConfig w K V) (s : OpenMap w K V) (key : K) : Bool :=
  (openProbe cfg s key false).1 = .occupied

/-- One round of the loop of `open_clear`. -/
def clearSlot (cfg : HashMapConfig w K V) (s : OpenMap w K V) (i : ℕ) : OpenMap w K V :=
  let slot := s.slots i
  if slot.state = .occupied then
    s.setSlot i
      { state := .empty
        key := cfg.keyPolicy.destroy slot.key
        value := cfg.valuePolicy.destroy slot.value }
  else s.setSlot i { slot with state := .empty }

/-- `open_clear`. -/
def openClear (cfg : HashMapConfig w K V) (s : OpenMap w K V) : OpenMap w K V :=
  (List.range s.buckets).foldl (clearSlot cfg) s

/-- The loop of `open_rehash` over the remaining old slots; it stops at the first put that
fails. -/
def rehashLoop (cfg : HashMapConfig w K V) (oldSlots : ℕ → Slot K V) :
    List ℕ → OpenMap w K V → Status × OpenMap w K V
  | [], s => (.ok, s)
  | i :: is, s =>
    if (oldSlots i).state ≠ .occupied then rehashLoop cfg oldSlots is s
    else
      let (st, s) := openPut cfg s (oldSlots i).key (oldSlots i).value
      if st ≠ .ok then (st, s) else rehashLoop cfg oldSlots is s

/-- The zeroed slots that `open_rehash` starts from. -/
def freshSlots (cfg : HashMapConfig w K V) (s : OpenMap w K V) (newCount : BitVec w) :
    OpenMap w K V :=
  { s with
    slots := fun _ => { state := .empty, key := cfg.zeroKey, value := cfg.zeroValue }
    bucketCount := newCount
    size := 0 }

/-- `open_rehash`: the new slots are zeroed memory, and a failure puts the old ones back. -/
def openRehash (cfg : HashMapConfig w K V) (s : OpenMap w K V) (newBucketCount : BitVec w) :
    Status × OpenMap w K V :=
  let allocSt := cfg.allocRaw s.allocs (newBucketCount * cfg.slotStride)
  let s := { s with allocs := s.allocs + 1 }
  if allocSt ≠ .ok then (allocSt, s)
  else
    let (st, t) := rehashLoop cfg s.slots (List.range s.buckets) (freshSlots cfg s newBucketCount)
    if st ≠ .ok then
      (st, { t with slots := s.slots, bucketCount := s.bucketCount, size := s.size })
    else (.ok, t)

/-- `maybe_grow`. -/
def maybeGrow (cfg : HashMapConfig w K V) (s : OpenMap w K V) : Status × OpenMap w K V :=
  let newCount := growBucketCount s.bucketCount
  if newCount = s.bucketCount then (.full, s) else openRehash cfg s newCount

/-! ## The interface -/

/-- `put`; `none` is a null pointer. -/
def put (cfg : HashMapConfig w K V) (s : OpenMap w K V) (key : Option K) (value : Option V) :
    Status × OpenMap w K V :=
  match key, value with
  | some key, some value =>
    if s.bucketCount = 0 then (.nullPtr, s)
    else if shouldGrow cfg.growable s.bucketCount s.size then
      let (growSt, s) := maybeGrow cfg s
      if growSt ≠ .ok then (growSt, s) else openPut cfg s key value
    else openPut cfg s key value
  | _, _ => (.nullPtr, s)

/-- `get`; `out` is what `out_value` points to. -/
def get (cfg : HashMapConfig w K V) (s : OpenMap w K V) (key : Option K) (out : Option V) :
    (Status × Option V) × OpenMap w K V :=
  match key, out with
  | some key, some out =>
    let ((st, out), s) := openGet cfg s key out
    ((st, some out), s)
  | _, _ => ((.nullPtr, out), s)

/-- `remove`. -/
def remove (cfg : HashMapConfig w K V) (s : OpenMap w K V) (key : Option K) :
    Status × OpenMap w K V :=
  match key with
  | some key => openRemove cfg s key
  | none => (.nullPtr, s)

/-- `contains`. -/
def contains (cfg : HashMapConfig w K V) (s : OpenMap w K V) (key : Option K) : Bool :=
  match key with
  | some key => openContains cfg s key
  | none => false

/-- `clear`. -/
def clear (cfg : HashMapConfig w K V) (s : OpenMap w K V) : OpenMap w K V :=
  if s.bucketCount = 0 then { s with size := 0 } else { openClear cfg s with size := 0 }

/-- One round of the loop of `init_open`. -/
def initSlot (slots : ℕ → Slot K V) (i : ℕ) : ℕ → Slot K V :=
  Function.update slots i { slots i with state := .empty }

/-- `init_open` over memory with contents `memory`. -/
def initOpen (hasSlots : Bool) (memory : ℕ → Slot K V) (bucketCount slotStride : BitVec w) :
    Except Status (OpenMap w K V) :=
  if hasSlots = false ∨ bucketCount = 0 ∨ slotStride = 0 then .error .invalid
  else
    .ok
      { slots := (List.range bucketCount.toNat).foldl initSlot memory
        bucketCount, size := 0, copies := 0, allocs := 0 }

/-- A call of the map's interface. -/
inductive Call (K V : Type*)
  | put (key : Option K) (value : Option V)
  | get (key : Option K) (out : Option V)
  | remove (key : Option K)
  | contains (key : Option K)
  | clear
  deriving DecidableEq, Repr

/-- What a call returns. -/
inductive Reply (V : Type*)
  | put (result : Status)
  | get (result : Status) (out : Option V)
  | remove (result : Status)
  | contains (answer : Bool)
  | clear
  deriving DecidableEq, Repr

/-- Dispatch a call. -/
def call (cfg : HashMapConfig w K V) (s : OpenMap w K V) : Call K V → Reply V × OpenMap w K V
  | .put key value => ((.put (put cfg s key value).1), (put cfg s key value).2)
  | .get key out => (.get (get cfg s key out).1.1 (get cfg s key out).1.2, (get cfg s key out).2)
  | .remove key => (.remove (remove cfg s key).1, (remove cfg s key).2)
  | .contains key => (.contains (contains cfg s key), s)
  | .clear => (.clear, clear cfg s)

end OpenMap

end Memkit
