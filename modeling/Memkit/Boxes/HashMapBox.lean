import Memkit.Core.WordArithmetic
import Memkit.Hashing.ChainingBlocks
import Memkit.Hashing.OpenAddressingBlocks

/-! # The hash map box

`c_api/hashmap_box.hpp`: the configuration of the C interface, the array of buckets or of slots, and
the core over it. The first array is provided by the caller, obtained from an arena or obtained from
the heap; growth replaces it by one that the core obtains.

* **`HashMapBox`** — the core, its array and `c_flags_`, with `init`, `call` and `deinit`; the core
  is any `MapCore`.
* **`ReplacesCallerArray`** — the runs in which growth replaces the array of the caller by one of the
  heap; `HashMapBox.deinit_settled_iff` says that these are the ones that go wrong.
* **`chainConfig`, `openConfig`** — what the two cores are configured with. -/

namespace Memkit

open Ledger (Event)
open RawMemory

variable {w : ℕ} {K V : Type*}

/-! ## The configuration -/

/-- `hashmap_strategy_t`, for the two strategies that `validate_config` accepts. -/
inductive MapStrategy
  | chaining
  | openAddressing
  deriving DecidableEq, Repr

/-- `hashmap_config_t`. -/
structure HashMapBoxConfig (w : ℕ) (K V : Type*) where
  keySize : BitVec w
  valueSize : BitVec w
  bucketCount : BitVec w
  strategy : MapStrategy
  /-- Whether `storage` is not null. -/
  storage : Bool
  storageBytes : BitVec w
  /-- Whether `arena` is not null. -/
  arena : Bool
  flags : BoxFlags
  /-- `GROWABLE`. -/
  growable : Bool
  /-- `copy_key_fn` and `destroy_key_fn`. -/
  keyPolicy : ElementPolicy K
  /-- `copy_value_fn` and `destroy_value_fn`. -/
  valuePolicy : ElementPolicy V
  /-- `hash_fn` and `key_eq_fn`. -/
  hashPolicy : HashPolicy w K
  /-- `sizeof(hashmap_node_t*)`, which is also that of the header of a node. -/
  pointerSize : BitVec w
  /-- `alignof(std::max_align_t)`. -/
  maxAlign : BitVec w
  /-- What a slot of zeroed memory holds. -/
  zeroKey : K
  zeroValue : V
  /-- A word holds the default number of buckets. -/
  wide : 8 < 2 ^ w
  pointerSize_pos : 0 < pointerSize.toNat
  /-- The buckets that are asked for, or provided, fit into memory. -/
  buckets_real : strategy = .chaining →
    (if bucketCount = 0 then defaultBuckets w else bucketCount).toNat * pointerSize.toNat <
      2 ^ (w - 1)

/-- The allocators of a map; a block of memory has at most `PTRDIFF_MAX` bytes. -/
structure MapAllocators (w : ℕ) extends Allocators w MapArea where
  arena_real : ∀ area bytes, arenaAlloc area bytes = .ok → bytes.toNat < 2 ^ (w - 1)
  malloc_real : ∀ area bytes, malloc area bytes = true → bytes.toNat < 2 ^ (w - 1)

/-- `alloc_raw` of the core, whose arena function maps the statuses of `arena_alloc`. -/
def Allocators.coreAllocRaw (env : Allocators w MapArea) (arena : Bool) (n : ℕ) (bytes : BitVec w) :
    Status :=
  if arena then
    let status := env.arenaAlloc (.request n) bytes
    if status ≠ .ok then if status = .oom then .oom else .invalid else .ok
  else if env.allowHeap then if env.malloc (.request n) bytes then .ok else .oom
  else .oom

namespace HashMapBoxConfig

/-- `bytes_alignment`. -/
def bytesAlignment (maxAlign elemSize : BitVec w) : BitVec w :=
  if elemSize = 0 then maxAlign
  else
    let align := elemSize &&& (~~~elemSize + 1)
    if 0 < align then align else 1

/-- `open_slot_stride`. -/
def openSlotStride (cfg : HashMapBoxConfig w K V) : BitVec w :=
  let keyOffset := alignUp 1 (bytesAlignment cfg.maxAlign cfg.keySize)
  let valueOffset := keyOffset + cfg.keySize
  valueOffset + cfg.valueSize

/-- The local `bucket_count` of `init`. -/
def usedBucketCount (cfg : HashMapBoxConfig w K V) : BitVec w :=
  if cfg.bucketCount = 0 then defaultBuckets w else cfg.bucketCount

/-- The bytes of the first array. -/
def arrayBytes (cfg : HashMapBoxConfig w K V) : BitVec w :=
  match cfg.strategy with
  | .chaining => cfg.usedBucketCount * cfg.pointerSize
  | .openAddressing => cfg.usedBucketCount * cfg.openSlotStride

/-- `validate_config`. -/
def validateConfig (cfg : HashMapBoxConfig w K V) : Status :=
  if cfg.keySize = 0 then .invalid
  else if ¬ cfg.storage ∧ cfg.bucketCount = 0 ∧ ¬ cfg.arena ∧ ¬ cfg.flags.dynamicStorage then
    .invalid
  else if ¬ cfg.storage ∧ ¬ cfg.flags.wantsOwnedStorage ∧ ¬ cfg.arena then .invalid
  else if cfg.storage ∧ cfg.bucketCount = 0 then .invalid
  else if cfg.storage ∧ cfg.strategy = .chaining ∧
      cfg.storageBytes < cfg.bucketCount * cfg.pointerSize then .invalid
  else .ok

/-- Where the core gets its memory. -/
def rawMemory (cfg : HashMapBoxConfig w K V) (env : MapAllocators w) : RawMemory where
  arena := cfg.arena
  allowHeap := env.allowHeap

theorem usedBucketCount_pos (cfg : HashMapBoxConfig w K V) : 0 < cfg.usedBucketCount.toNat := by
  unfold usedBucketCount
  split
  · have hdefault : (defaultBuckets w).toNat = 8 :=
      (BitVec.toNat_ofNat 8 w).trans (Nat.mod_eq_of_lt cfg.wide)
    rw [hdefault]
    decide
  · next hne =>
    rw [Nat.pos_iff_ne_zero]
    intro hzero
    exact hne (BitVec.eq_of_toNat_eq hzero)

/-- Without the heap and without an arena every request is refused. -/
theorem coreAllocRaw_ne_ok (env : Allocators w MapArea) (hallow : env.allowHeap = false) (n : ℕ)
    (bytes : BitVec w) : env.coreAllocRaw false n bytes ≠ .ok := by
  simp [Allocators.coreAllocRaw, hallow]

theorem coreAllocRaw_real (env : MapAllocators w) (arena : Bool) (n : ℕ) (bytes : BitVec w)
    (h : env.coreAllocRaw arena n bytes = .ok) : bytes.toNat < 2 ^ (w - 1) := by
  unfold Allocators.coreAllocRaw at h
  dsimp only at h
  repeat' split at h
  · cases h
  · cases h
  · next hok => exact env.arena_real _ _ (not_not.mp hok)
  · next hok => exact env.malloc_real _ _ hok
  · cases h
  · cases h

/-- What `init_chaining` is given. -/
def chainConfig (cfg : HashMapBoxConfig w K V) (env : MapAllocators w)
    (hchaining : cfg.strategy = .chaining) : ChainConfig w K V where
  keyPolicy := cfg.keyPolicy
  valuePolicy := cfg.valuePolicy
  hashPolicy := cfg.hashPolicy
  growable := cfg.growable
  allocRaw := env.coreAllocRaw cfg.arena
  nodeBytes := cfg.pointerSize + cfg.keySize + cfg.valueSize
  pointerSize := cfg.pointerSize
  initialBuckets := cfg.usedBucketCount
  pointerSize_pos := cfg.pointerSize_pos
  initialBuckets_pos := cfg.usedBucketCount_pos
  initialBuckets_real := cfg.buckets_real hchaining
  allocRaw_real := coreAllocRaw_real env cfg.arena

/-- What `init_open` is given. -/
def openConfig (cfg : HashMapBoxConfig w K V) (env : MapAllocators w) : HashMapConfig w K V where
  keyPolicy := cfg.keyPolicy
  valuePolicy := cfg.valuePolicy
  hashPolicy := cfg.hashPolicy
  growable := cfg.growable
  slotStride := cfg.openSlotStride
  allocRaw := env.coreAllocRaw cfg.arena
  zeroKey := cfg.zeroKey
  zeroValue := cfg.zeroValue

end HashMapBoxConfig

/-! ## The box -/

/-- The members of `hashmap_box`: the core, with its array and storage kind, and `c_flags_`. -/
structure HashMapBox (σ : Type*) where
  core : σ
  /-- `buckets_` or `slots_`, and `storage_kind_`. -/
  array : MapArray
  /-- `c_flags_`. -/
  cFlags : BoxFlags

namespace HashMapBox

variable {σ ι ο : Type*}

/-- `allocate_bucket_storage`; `coreInit` is the result of `init_chaining` or `init_open`. -/
def allocateBucketStorage (cfg : HashMapBoxConfig w K V) (env : MapAllocators w)
    (coreInit : Except Status σ) (heap : Ledger (Block MapArea)) :
    Except Status (HashMapBox σ) × Ledger (Block MapArea) :=
  if cfg.storage then
    (coreInit.map fun core => ⟨core, ⟨.given .storage, .external⟩, .cleared⟩, heap)
  else
    match env.allocRaw cfg.arena .storage cfg.arrayBytes heap with
    | (.error allocStatus, heap) => (.error allocStatus, heap)
    | (.ok ptr, heap) =>
      match coreInit with
      | .error st => (.error st, heap)
      | .ok core =>
        if cfg.arena then
          (.ok ⟨core, ⟨ptr, .ownsArena⟩,
            { BoxFlags.cleared with ownsStorage := true, arenaStorage := true }⟩, heap)
        else if env.allowHeap then
          (.ok ⟨core, ⟨ptr, .ownsHeap⟩,
            { BoxFlags.cleared with ownsStorage := true, dynamicStorage := true }⟩, heap)
        else (.ok ⟨core, ⟨ptr, .external⟩, { BoxFlags.cleared with ownsStorage := true }⟩, heap)

/-- `init`, on a zeroed box. -/
def init (cfg : HashMapBoxConfig w K V) (env : MapAllocators w) (coreInit : Except Status σ) :
    Except Status (HashMapBox σ) × Ledger (Block MapArea) :=
  if cfg.validateConfig ≠ .ok then (.error cfg.validateConfig, .empty _)
  else if cfg.strategy = .openAddressing ∧ cfg.storage ∧ cfg.storageBytes < cfg.arrayBytes then
    (.error .invalid, .empty _)
  else
    match allocateBucketStorage cfg env coreInit (.empty _) with
    | (.error storageStatus, heap) => (.error storageStatus, heap)
    | (.ok box, heap) =>
      (.ok
        { box with
          cFlags :=
            { box.cFlags with
              ownsStorage := box.cFlags.ownsStorage || (cfg.storage && cfg.flags.ownsStorage) } },
        heap)

/-- A call of the interface between `init` and `deinit`. -/
def call (core : MapCore σ ι ο) (mem : RawMemory) (box : HashMapBox σ) (c : ι) :
    ο × HashMapBox σ :=
  ((core.call box.core c).1,
    { box with
      core := (core.call box.core c).2
      array := core.arrayAfter mem box.array box.core c })

/-- The events of a call. -/
def blocks (core : MapCore σ ι ο) (box : HashMapBox σ) (c : ι) : List (Event (Block MapArea)) :=
  core.blocks box.array box.core c

/-- The events of `release_bucket_storage`, which calls `release_storage` of the core. -/
def releaseBucketStorage (mem : RawMemory) (box : HashMapBox σ) : List (Event (Block MapArea)) :=
  if box.cFlags.ownsStorage = false then []
  else if mem.allowHeap && box.cFlags.dynamicStorage then box.array.release mem
  else []

/-- `deinit`, for the heap; `none` if `clear` does not return. -/
def deinit (core : MapCore σ ι ο) (mem : RawMemory)
    (s : HashMapBox σ × Ledger (Block MapArea)) : Option (Ledger (Block MapArea)) :=
  match core.clear s.1.core with
  | none => none
  | some _ => some ((s.2.replay (core.clearBlocks s.1.core)).replay (s.1.releaseBucketStorage mem))

/-- The calls of the interface, with the heap. -/
abbrev run (core : MapCore σ ι ο) (mem : RawMemory) (s : HashMapBox σ × Ledger (Block MapArea))
    (calls : List ι) : HashMapBox σ × Ledger (Block MapArea) :=
  Mealy.final (Mealy.tracked (call core mem) (blocks core)) s calls

/-- **The condition**: the caller provides the array, there is no arena, and a call grows, which
replaces the array by one of the heap. -/
def ReplacesCallerArray (cfg : HashMapBoxConfig w K V) (core : MapCore σ ι ο) (s : σ)
    (calls : List ι) : Prop :=
  cfg.storage = true ∧ cfg.arena = false ∧
    ¬ Mealy.EveryCall core.call (fun s c => core.replaces s c = false) s calls

/-! ## What is obtained and what is released -/

/-- The array after `init`. -/
def firstArray (cfg : HashMapBoxConfig w K V) : MapArray where
  block := Allocators.blockOf cfg.storage .storage
  kind := if cfg.storage then .external else if cfg.arena then .ownsArena else .ownsHeap

variable {cfg : HashMapBoxConfig w K V} {env : MapAllocators w} {coreInit : Except Status σ}
  {box : HashMapBox σ} {heap heap' : Ledger (Block MapArea)} {core : MapCore σ ι ο}
  {mem : RawMemory} {Inv : σ → List ℕ → Prop}

/-- What `allocate_bucket_storage` does when it returns ok. -/
theorem allocateBucketStorage_ok
    (h : allocateBucketStorage cfg env coreInit (.empty _) = (.ok box, heap)) :
    coreInit = .ok box.core ∧ box.array = firstArray cfg ∧
      box.cFlags.ownsStorage = !cfg.storage ∧
      box.cFlags.dynamicStorage = (!cfg.storage && !cfg.arena) ∧
      heap.Holds {b | b ∈ ownedBlocks [] (firstArray cfg)} ∧
      (cfg.storage = false → cfg.arena = false → env.allowHeap = true) := by
  unfold allocateBucketStorage at h
  unfold firstArray
  rcases hstorage : cfg.storage with _ | _
  · rw [hstorage, if_neg Bool.false_ne_true] at h
    split at h
    · cases h
    next hraw =>
    obtain ⟨rfl, hholds, hallow⟩ :=
      Allocators.provide_ok (show env.provide false cfg.arena .storage _ _ = _ from hraw)
        Ledger.holds_nil List.not_mem_nil
    have hallow := hallow rfl
    split at h
    · cases h
    rcases harena : cfg.arena with _ | _
    · rw [harena, if_neg Bool.false_ne_true, if_pos (hallow harena)] at h
      rw [harena] at hholds
      cases h
      exact ⟨rfl, rfl, rfl, rfl, hholds, fun _ _ => hallow harena⟩
    · rw [harena, if_pos rfl] at h
      rw [harena] at hholds
      cases h
      exact ⟨rfl, rfl, rfl, rfl, hholds, nofun⟩
  · rw [hstorage, if_pos rfl] at h
    obtain ⟨hmap, rfl⟩ := Prod.mk.inj h
    rcases coreInit with st | s
    · cases hmap
    · cases hmap
      exact ⟨rfl, rfl, rfl, rfl, Ledger.holds_nil, nofun⟩

/-- **A successful `init`**: the core over its first array. -/
theorem init_ok (h : init cfg env coreInit = (.ok box, heap)) :
    coreInit = .ok box.core ∧ box.array = firstArray cfg ∧
      box.cFlags.ownsStorage = (!cfg.storage || cfg.flags.ownsStorage) ∧
      box.cFlags.dynamicStorage = (!cfg.storage && !cfg.arena) ∧
      heap.Holds {b | b ∈ ownedBlocks [] (firstArray cfg)} ∧
      (cfg.storage = false → cfg.arena = false → env.allowHeap = true) := by
  unfold init at h
  split at h
  · cases h
  split at h
  · cases h
  split at h
  · cases h
  next halloc =>
  cases h
  obtain ⟨hcore, harray, howns, hdynamic, hheap, hallow⟩ := allocateBucketStorage_ok halloc
  refine ⟨hcore, harray, ?_, hdynamic, hheap, hallow⟩
  show (_ || _) = _
  rw [howns]
  cases cfg.storage <;> rfl

/-- What a box of the heap keeps: the heap holds its nodes, and its array if that is one of the
heap. -/
structure Owns (core : MapCore σ ι ο) (Inv : σ → List ℕ → Prop)
    (s : HashMapBox σ × Ledger (Block MapArea)) (nodes : List ℕ) : Prop where
  inv : Inv s.1.core nodes
  apart : s.1.array.Apart (core.allocs s.1.core) nodes
  holds : s.2.Holds {b | b ∈ ownedBlocks nodes s.1.array}

theorem Owns.call {s : HashMapBox σ × Ledger (Block MapArea)} {nodes : List ℕ}
    (hsound : core.Sound mem Inv) (huses : mem.usesHeap = true) (h : Owns core Inv s nodes)
    (c : ι) :
    ∃ nodes', Owns core Inv (Mealy.tracked (HashMapBox.call core mem) (blocks core) s c).2
      nodes' := by
  obtain ⟨nodes', hinv, hblocks⟩ := hsound.call c h.inv
  obtain ⟨hapart, hholds⟩ := hblocks huses _ _ h.apart h.holds
  exact ⟨nodes', hinv, hapart, hholds⟩

/-- No call changes `c_flags_`. -/
theorem run_cFlags (core : MapCore σ ι ο) (mem : RawMemory)
    (s : HashMapBox σ × Ledger (Block MapArea)) (calls : List ι) :
    (run core mem s calls).1.cFlags = s.1.cFlags := by
  induction calls generalizing s with
  | nil => rfl
  | cons c calls ih => exact ih _

/-- **The array is one of the heap** after some calls if it was one before them or one of them
grows. -/
theorem run_kind (core : MapCore σ ι ο) (harena : mem.arena = false)
    (s : HashMapBox σ × Ledger (Block MapArea))
    (calls : List ι) :
    (run core mem s calls).1.array.kind.heap = false ↔
      s.1.array.kind.heap = false ∧
        Mealy.EveryCall core.call (fun s c => core.replaces s c = false) s.1.core calls := by
  induction calls generalizing s with
  | nil => exact ⟨fun h => ⟨h, trivial⟩, And.left⟩
  | cons c calls ih =>
    rw [Mealy.everyCall_cons]
    refine (ih (Mealy.tracked (HashMapBox.call core mem) (blocks core) s c).2).trans ?_
    show (core.arrayAfter mem s.1.array s.1.core c).kind.heap = false ∧ _ ↔ _
    rcases hreplaces : core.replaces s.1.core c with _ | _
    · rw [MapCore.arrayAfter, hreplaces, if_neg Bool.false_ne_true]
      exact ⟨fun h => ⟨h.1, rfl, h.2⟩, fun h => ⟨h.1, h.2.2⟩⟩
    · rw [MapCore.arrayAfter, hreplaces, if_pos rfl, replaced, harena]
      exact iff_of_false (fun h => Bool.noConfusion h.1) fun h => Bool.noConfusion h.2.1

/-- Without the heap nothing happens to it. -/
theorem run_heap (hsound : core.Sound mem Inv) (huses : mem.usesHeap = false)
    (s : HashMapBox σ × Ledger (Block MapArea)) (calls : List ι) :
    (run core mem s calls).2 = s.2 := by
  induction calls generalizing s with
  | nil => rfl
  | cons c calls ih =>
    refine (ih _).trans ?_
    show s.2.replay (core.blocks s.1.array s.1.core c) = s.2
    rw [(hsound.silent huses _ _).1 c]
    rfl

/-- Without the heap and without an arena no call grows. -/
theorem everyCall_refused (hsound : core.Sound mem Inv) (harena : mem.arena = false)
    (hallow : mem.allowHeap = false) (s : σ) (calls : List ι) :
    Mealy.EveryCall core.call (fun s c => core.replaces s c = false) s calls := by
  induction calls generalizing s with
  | nil => trivial
  | cons c calls ih => exact ⟨hsound.refused harena hallow s c, ih _⟩

/-- The nodes are freed by `clear`, and the array is left. -/
theorem Owns.clear {s : HashMapBox σ × Ledger (Block MapArea)} {nodes : List ℕ}
    (hsound : core.Sound mem Inv) (huses : mem.usesHeap = true) (h : Owns core Inv s nodes) :
    (s.2.replay (core.clearBlocks s.1.core)).Holds {b | b ∈ s.1.array.ofHeap} := by
  obtain ⟨hnodup, -, hclear⟩ := hsound.clear h.inv
  obtain ⟨xs, hperm, heq⟩ := hclear huses
  have hfreed := holds_freed_all h.holds hperm hnodup fun n hn hblock => (h.apart n hblock).2 hn
  rwa [heq, show s.1.array.ofHeap = ownedBlocks [] s.1.array from (List.append_nil _).symm]

/-- **`deinit` without the heap**: nothing was obtained and nothing is freed. -/
theorem deinit_settled_of_silent (hsound : core.Sound (cfg.rawMemory env) Inv)
    (huses : (cfg.rawMemory env).usesHeap = false)
    (hinit : init cfg env coreInit = (.ok box, heap)) (calls : List ι)
    (hdeinit : deinit core (cfg.rawMemory env) (run core (cfg.rawMemory env) (box, heap) calls) =
      some heap') : heap'.Settled := by
  obtain ⟨-, -, -, hdynamic, hheap, hallow⟩ := init_ok hinit
  have hfree : cfg.arena = true ∨ env.allowHeap = false := by
    rw [RawMemory.usesHeap, Bool.and_eq_false_iff, Bool.not_eq_false'] at huses
    exact huses
  have hnothing : ownedBlocks [] (firstArray cfg) = [] := by
    unfold ownedBlocks MapArray.ofHeap firstArray
    rcases hstorage : cfg.storage with _ | _
    · rcases harena : cfg.arena with _ | _
      · have hheap := hallow hstorage harena
        rw [hfree.resolve_left (by simp [harena])] at hheap
        cases hheap
      · rfl
    · rfl
  have hrelease : (run core (cfg.rawMemory env) (box, heap) calls).1.releaseBucketStorage
      (cfg.rawMemory env) = [] := by
    unfold releaseBucketStorage
    rw [run_cFlags]
    dsimp only
    rw [hdynamic]
    rcases hfree with harena | hheap
    · rw [harena, Bool.not_true, Bool.and_false, Bool.and_false]
      exact ite_self _
    · rw [show (cfg.rawMemory env).allowHeap = false from hheap, Bool.false_and]
      exact ite_self _
  unfold deinit at hdeinit
  split at hdeinit
  · cases hdeinit
  cases hdeinit
  rw [hrelease, run_heap hsound huses, (hsound.silent huses (firstArray cfg) _).2]
  refine Ledger.Holds.settled ?_
  rw [hnothing] at hheap
  simpa using hheap

/-- **`deinit` with the heap**: the array of the caller has to be the one that is left. -/
theorem deinit_settled_iff_of_heap (hsound : core.Sound (cfg.rawMemory env) Inv)
    (huses : (cfg.rawMemory env).usesHeap = true)
    (hinit : init cfg env coreInit = (.ok box, heap)) (hinv : Inv box.core []) (calls : List ι)
    (hdeinit : deinit core (cfg.rawMemory env) (run core (cfg.rawMemory env) (box, heap) calls) =
      some heap') : heap'.Settled ↔ ¬ ReplacesCallerArray cfg core box.core calls := by
  obtain ⟨-, harray, howns, hdynamic, hheap, -⟩ := init_ok hinit
  obtain ⟨harena, hallow⟩ : cfg.arena = false ∧ env.allowHeap = true := by
    rw [RawMemory.usesHeap, Bool.and_eq_true, Bool.not_eq_true'] at huses
    exact huses
  -- what the box owns holds after `init` and is kept by every call
  have hfirst : Owns core Inv (box, heap) [] := by
    refine ⟨hinv, fun n hn => ?_, ?_⟩
    · -- the first array is not the block of a request
      dsimp only at hn
      rw [harray, firstArray, Allocators.blockOf] at hn
      split at hn <;> cases hn
    · dsimp only
      rw [harray]
      exact hheap
  obtain ⟨nodes, hfinal⟩ : ∃ nodes, Owns core Inv
      (run core (cfg.rawMemory env) (box, heap) calls) nodes :=
    (Mealy.everyCall_true _ calls).final_invariant (fun s => ∃ nodes, Owns core Inv s nodes)
      (fun _ c h _ => h.choose_spec.call hsound huses c) ⟨[], hfirst⟩
  -- `deinit` clears the core first, which leaves at most the array
  have hleft := hfinal.clear hsound huses
  have hmem : (cfg.rawMemory env).arena = false := harena
  have hkind := run_kind core hmem (box, heap) calls
  have hflags := run_cFlags core (cfg.rawMemory env) (box, heap) calls
  unfold deinit at hdeinit
  split at hdeinit
  · cases hdeinit
  cases hdeinit
  -- from here on the run matters only through its array and its flags
  generalize run core (cfg.rawMemory env) (box, heap) calls = s at hleft hkind hflags
  unfold releaseBucketStorage ReplacesCallerArray
  dsimp only at hkind hflags
  rw [hflags, howns, hdynamic, harena]
  rw [harray, firstArray] at hkind
  rcases hstorage : cfg.storage with _ | _
  · -- the box owns its array, the first one or another
    rw [hstorage, harena] at hkind
    have hheapKind : s.1.array.kind = .ownsHeap := by
      rcases hk : s.1.array.kind with _ | _ | _
      · rw [hk] at hkind
        exact absurd (hkind.mp rfl).1 (by decide)
      · rw [hk] at hkind
        exact absurd (hkind.mp rfl).1 (by decide)
      · rfl
    have hrelease : s.1.array.release (cfg.rawMemory env) = [.destroy s.1.array.block] := by
      rw [MapArray.release, hheapKind]
      exact freed_eq huses _
    rw [MapArray.ofHeap, hheapKind] at hleft
    have hreleases : ((cfg.rawMemory env).allowHeap && (!false && !false)) = true := by
      rw [show (cfg.rawMemory env).allowHeap = true from hallow]
      rfl
    have howned : ¬ (!false || cfg.flags.ownsStorage) = false := by simp
    rw [if_neg howned, if_pos hreleases, hrelease]
    refine iff_of_true (Ledger.Holds.settled ?_) fun h => Bool.noConfusion h.1
    have hnothing := hleft.destroy_perm (List.Perm.refl [s.1.array.block]) List.not_mem_nil
    simpa [Ledger.record] using hnothing
  · -- the array was handed in, so `deinit` releases none, whatever growth put in its place
    rw [hstorage, if_pos rfl] at hkind
    have hrelease : (if (!true || cfg.flags.ownsStorage) = false then []
        else if (cfg.rawMemory env).allowHeap && (!true && !false) then
          s.1.array.release (cfg.rawMemory env) else []) = [] := by
      rw [Bool.not_true, Bool.false_and, Bool.and_false]
      exact ite_self _
    rw [hrelease, Ledger.replay_nil]
    have hcalls : s.1.array.kind.heap = false ↔
        Mealy.EveryCall core.call (fun s c => core.replaces s c = false) box.core calls :=
      hkind.trans ⟨And.right, fun h => ⟨rfl, h⟩⟩
    simp only [true_and, not_not, ← hcalls]
    constructor
    · intro hsettled
      have hempty := hsettled.eq_empty hleft
      by_contra hk
      have hmem : s.1.array.block ∈ {b | b ∈ s.1.array.ofHeap} := by
        rw [Bool.not_eq_false] at hk
        show _ ∈ MapArray.ofHeap _
        rw [MapArray.ofHeap, if_pos hk]
        exact List.mem_singleton_self _
      rw [hempty] at hmem
      exact hmem
    · intro hk
      refine Ledger.Holds.settled ?_
      rw [MapArray.ofHeap, hk] at hleft
      simpa using hleft

/-- **`deinit` after any calls** frees what the box and its core obtained from the heap, once each
and nothing else, exactly if growth did not replace the array of the caller. -/
theorem deinit_settled_iff (hsound : core.Sound (cfg.rawMemory env) Inv)
    (hinit : init cfg env coreInit = (.ok box, heap)) (hinv : Inv box.core []) (calls : List ι)
    (hdeinit : deinit core (cfg.rawMemory env) (run core (cfg.rawMemory env) (box, heap) calls) =
      some heap') : heap'.Settled ↔ ¬ ReplacesCallerArray cfg core box.core calls := by
  rcases huses : (cfg.rawMemory env).usesHeap with _ | _
  · refine iff_of_true (deinit_settled_of_silent hsound huses hinit calls hdeinit) ?_
    rintro ⟨-, harena, hgrows⟩
    have hallow : env.allowHeap = false := by
      rw [RawMemory.usesHeap, Bool.and_eq_false_iff, Bool.not_eq_false'] at huses
      exact huses.resolve_left (by simp [HashMapBoxConfig.rawMemory, harena])
    exact hgrows (everyCall_refused hsound harena hallow _ calls)
  · exact deinit_settled_iff_of_heap hsound huses hinit hinv calls hdeinit

/-- **`deinit` returns** after any calls. -/
theorem deinit_returns (hsound : core.Sound mem Inv)
    (s : HashMapBox σ × Ledger (Block MapArea)) (hinv : Inv s.1.core []) (calls : List ι) :
    ∃ heap', deinit core mem (run core mem s calls) = some heap' := by
  obtain ⟨nodes, hfinal⟩ : ∃ nodes, Inv (run core mem s calls).1.core nodes :=
    (Mealy.everyCall_true _ calls).final_invariant
      (fun s : HashMapBox σ × Ledger (Block MapArea) => ∃ nodes, Inv s.1.core nodes)
      (fun _ c h _ => by
        obtain ⟨nodes', hinv', -⟩ := hsound.call c h.choose_spec
        exact ⟨nodes', hinv'⟩) ⟨[], hinv⟩
  obtain ⟨u, hclear⟩ := (hsound.clear hfinal).2.1
  exact ⟨_, by rw [deinit, hclear]⟩

/-! ## The two cores -/

/-- `init` with chains, over memory with any contents. -/
def initChaining (cfg : HashMapBoxConfig w K V) (env : MapAllocators w)
    (hchaining : cfg.strategy = .chaining) (links : ℕ → Option ℕ) (keyMemory : ℕ → K)
    (valueMemory : ℕ → V) :
    Except Status (HashMapBox (ChainMap w K V)) × Ledger (Block MapArea) :=
  init cfg env (.ok (ChainMap.init (cfg.chainConfig env hchaining) links keyMemory valueMemory))

/-- `init` with open addressing, over memory with any contents. -/
def initOpen (cfg : HashMapBoxConfig w K V) (env : MapAllocators w) (memory : ℕ → Slot K V) :
    Except Status (HashMapBox (OpenMap w K V)) × Ledger (Block MapArea) :=
  init cfg env (OpenMap.initOpen true memory cfg.usedBucketCount cfg.openSlotStride)

/-- The core of a box with chains. -/
def chainCore (cfg : HashMapBoxConfig w K V) (env : MapAllocators w)
    (hchaining : cfg.strategy = .chaining) :
    MapCore (ChainMap w K V) (ChainMap.Call K V) (Option (ChainMap.Reply K V)) :=
  ChainMap.mapCore (cfg.rawMemory env) (cfg.chainConfig env hchaining)

/-- The core of a box with open addressing. -/
def openCore (cfg : HashMapBoxConfig w K V) (env : MapAllocators w) :
    MapCore (OpenMap w K V) (OpenMap.Call K V) (OpenMap.Reply V) :=
  OpenMap.mapCore (cfg.rawMemory env) (cfg.openConfig env)

/-- **A box with chains**: `deinit` returns, and frees what was obtained, once each and nothing else,
exactly if growth did not replace the array of the caller. -/
theorem chaining_deinit {cfg : HashMapBoxConfig w K V} {env : MapAllocators w}
    {hchaining : cfg.strategy = .chaining} {links : ℕ → Option ℕ} {keyMemory : ℕ → K}
    {valueMemory : ℕ → V} {box : HashMapBox (ChainMap w K V)} {heap : Ledger (Block MapArea)}
    (hinit : initChaining cfg env hchaining links keyMemory valueMemory = (.ok box, heap))
    (calls : List (ChainMap.Call K V)) :
    ∃ heap', deinit (chainCore cfg env hchaining) (cfg.rawMemory env)
        (run (chainCore cfg env hchaining) (cfg.rawMemory env) (box, heap) calls) = some heap' ∧
      (heap'.Settled ↔
        ¬ ReplacesCallerArray cfg (chainCore cfg env hchaining) box.core calls) := by
  have hraw : (cfg.rawMemory env).arena = false → (cfg.rawMemory env).allowHeap = false →
      ∀ n bytes, (cfg.chainConfig env hchaining).allocRaw n bytes ≠ .ok := by
    intro harena hallow n bytes
    show env.coreAllocRaw cfg.arena n bytes ≠ .ok
    rw [show cfg.arena = false from harena]
    exact HashMapBoxConfig.coreAllocRaw_ne_ok env.toAllocators hallow n bytes
  have hsound := ChainMap.mapCore_sound (cfg.rawMemory env) (cfg.chainConfig env hchaining) hraw
  have hcore := Except.ok.inj (init_ok hinit).1
  have hinv : ∃ chains, ChainMap.Inv (cfg.chainConfig env hchaining) box.core chains ∧
      [] = ChainMap.stored box.core chains := by
    rw [← hcore]
    refine ⟨fun _ => [], (ChainMap.inv_init _ links keyMemory valueMemory).1, ?_⟩
    simp [ChainMap.stored, BucketChains.nodes]
  obtain ⟨heap', hdeinit⟩ := deinit_returns hsound (box, heap) hinv calls
  exact ⟨heap', hdeinit, deinit_settled_iff hsound hinit hinv calls hdeinit⟩

/-- **A box with open addressing**: the same. -/
theorem open_deinit {cfg : HashMapBoxConfig w K V} {env : MapAllocators w}
    {memory : ℕ → Slot K V} {box : HashMapBox (OpenMap w K V)} {heap : Ledger (Block MapArea)}
    (hinit : initOpen cfg env memory = (.ok box, heap)) (calls : List (OpenMap.Call K V)) :
    ∃ heap', deinit (openCore cfg env) (cfg.rawMemory env)
        (run (openCore cfg env) (cfg.rawMemory env) (box, heap) calls) = some heap' ∧
      (heap'.Settled ↔ ¬ ReplacesCallerArray cfg (openCore cfg env) box.core calls) := by
  have hraw : (cfg.rawMemory env).arena = false → (cfg.rawMemory env).allowHeap = false →
      ∀ n bytes, (cfg.openConfig env).allocRaw n bytes ≠ .ok := by
    intro harena hallow n bytes
    show env.coreAllocRaw cfg.arena n bytes ≠ .ok
    rw [show cfg.arena = false from harena]
    exact HashMapBoxConfig.coreAllocRaw_ne_ok env.toAllocators hallow n bytes
  have hsound := OpenMap.mapCore_sound (cfg.rawMemory env) (cfg.openConfig env) hraw
  obtain ⟨heap', hdeinit⟩ := deinit_returns hsound (box, heap) rfl calls
  exact ⟨heap', hdeinit, deinit_settled_iff hsound hinit rfl calls hdeinit⟩

end HashMapBox

end Memkit
