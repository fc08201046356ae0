import Memkit.Core.HeapBlocks
import Memkit.Caching.LruCacheCalls

/-! # The LRU cache box

`c_api/lrucache_box.hpp`: the configuration of the C interface, the storage of the cache, which is an
entry pool and a bucket array, and the core over it. Both blocks are provided by the caller, obtained
from an arena or obtained from the heap, each for itself.

* **`LruBox.init`**, **`LruBox.deinit`** — with the functions they call, in the order of the source.
* **`LruBoxConfig.PoolGivenAlone`** — the configurations in which one flag speaks for both blocks;
  `LruBox.deinit_settled_iff` says that these are the ones that go wrong. -/

namespace Memkit

variable {w : ℕ} {K V : Type*}

/-- The areas of storage of the box. -/
inductive LruArea
  | entryPool
  | buckets
  deriving DecidableEq, Repr

/-- `lrucache_config_t`. -/
structure LruBoxConfig (w : ℕ) (K V : Type*) where
  keySize : BitVec w
  valueSize : BitVec w
  capacity : BitVec w
  bucketCount : BitVec w
  /-- Whether `entry_pool` is not null. -/
  entryPool : Bool
  entryPoolBytes : BitVec w
  /-- Whether `buckets` is not null. -/
  buckets : Bool
  bucketsBytes : BitVec w
  /-- Whether `arena` is not null. -/
  arena : Bool
  flags : BoxFlags
  /-- `copy_key_fn` and `destroy_key_fn`. -/
  keyPolicy : ElementPolicy K
  /-- `copy_value_fn` and `destroy_value_fn`. -/
  valuePolicy : ElementPolicy V
  /-- `hash_fn` and `key_eq_fn`. -/
  hashEqPolicy : HashPolicy w K
  /-- The size of `lrucache_entry_header`, aligned. -/
  headerSize : BitVec w
  /-- `sizeof(lrucache_entry_header*)`. -/
  pointerSize : BitVec w

namespace LruBoxConfig

/-- `entry_pool_bytes`, over `entry_stride`. -/
def entryPoolSize (cfg : LruBoxConfig w K V) : BitVec w :=
  cfg.capacity * (cfg.headerSize + cfg.keySize + cfg.valueSize)

/-- `buckets_bytes`. -/
def bucketsSize (cfg : LruBoxConfig w K V) (bucketCount : BitVec w) : BitVec w :=
  bucketCount * cfg.pointerSize

/-- The loop of `default_bucket_count`; it doubles fewer than `w` times. -/
def defaultBucketLoop (capacity : BitVec w) : ℕ → BitVec w → BitVec w
  | 0, buckets => buckets
  | rounds + 1, buckets =>
    if buckets < capacity then
      if BitVec.allOnes w / 2 < buckets then capacity
      else defaultBucketLoop capacity rounds (buckets * 2)
    else buckets

/-- `default_bucket_count`. -/
def defaultBucketCount (capacity : BitVec w) : BitVec w := defaultBucketLoop capacity w 4

/-- The local `bucket_count` of `validate_config` and of `init`. -/
def usedBucketCount (cfg : LruBoxConfig w K V) : BitVec w :=
  if cfg.bucketCount ≠ 0 then cfg.bucketCount else defaultBucketCount cfg.capacity

/-- What the core is configured with. -/
def coreConfig (cfg : LruBoxConfig w K V) : LruConfig w K V where
  keyPolicy := cfg.keyPolicy
  valuePolicy := cfg.valuePolicy
  hashEqPolicy := cfg.hashEqPolicy
  capacity := cfg.capacity.toNat
  bucketCount := cfg.usedBucketCount.toNat

/-- `validate_config`. -/
def validateConfig (cfg : LruBoxConfig w K V) : Status :=
  if cfg.keySize = 0 ∨ cfg.capacity = 0 then .invalid
  else if cfg.entryPool ∧ cfg.entryPoolBytes < cfg.entryPoolSize then .invalid
  else if ¬ cfg.entryPool ∧ ¬ cfg.arena ∧ ¬ cfg.flags.dynamicStorage then .invalid
  else if cfg.buckets ∧ cfg.bucketsBytes < cfg.bucketsSize cfg.usedBucketCount then .invalid
  else if ¬ cfg.buckets ∧ ¬ cfg.arena ∧ ¬ cfg.flags.dynamicStorage ∧
      (¬ cfg.entryPool ∨ ¬ cfg.flags.wantsOwnedStorage) then .invalid
  else .ok

end LruBoxConfig

/-- The members of `lrucache_box`: the core, with its two storage pointers and `owns_buckets_`, and
`c_flags_`; and the heap. -/
structure LruBox (K V : Type*) where
  core : LruCache K V
  /-- `core_.entry_pool()`. -/
  entryPool : Option (Block LruArea)
  /-- `core_.buckets()`. -/
  buckets : Option (Block LruArea)
  /-- `core_.owns_buckets()`. -/
  ownsBuckets : Bool
  /-- `c_flags_`. -/
  cFlags : BoxFlags
  heap : Ledger (Block LruArea)

namespace LruBox

/-- The bits of `c_flags_` after a block was obtained. -/
def obtainedFlags (cfg : LruBoxConfig w K V) (flags : BoxFlags) : BoxFlags :=
  if cfg.arena then { flags with arenaStorage := true }
  else if cfg.flags.dynamicStorage then { flags with dynamicStorage := true }
  else flags

/-- `allocate_entry_pool`. -/
def allocateEntryPool (cfg : LruBoxConfig w K V) (env : Allocators w LruArea) (box : LruBox K V) :
    Except Status (Block LruArea) × LruBox K V :=
  match env.provide cfg.entryPool cfg.arena .entryPool cfg.entryPoolSize box.heap with
  | (.error status, heap) => (.error status, { box with heap := heap })
  | (.ok ptr, heap) =>
    (.ok ptr,
      { box with
        heap := heap
        cFlags := if cfg.entryPool then box.cFlags else obtainedFlags cfg box.cFlags })

/-- `allocate_buckets`. -/
def allocateBuckets (cfg : LruBoxConfig w K V) (env : Allocators w LruArea) (box : LruBox K V) :
    Except Status (Block LruArea) × LruBox K V :=
  match env.provide cfg.buckets cfg.arena .buckets (cfg.bucketsSize cfg.usedBucketCount)
      box.heap with
  | (.error status, heap) => (.error status, { box with heap := heap })
  | (.ok ptr, heap) =>
    (.ok ptr,
      { box with
        heap := heap
        cFlags := if cfg.buckets then box.cFlags else obtainedFlags cfg box.cFlags })

/-- `release_storage`. -/
def releaseStorage (env : Allocators w LruArea) (box : LruBox K V) : LruBox K V :=
  if box.cFlags.ownsStorage = false then box
  else
    let heap := env.releaseOwnedBlock box.cFlags.dynamicStorage box.entryPool box.heap
    let heap :=
      if box.ownsBuckets then env.releaseOwnedBlock box.cFlags.dynamicStorage box.buckets heap
      else heap
    { box with heap := heap, ownsBuckets := false }

/-- `core_.reset_state()`, for the storage pointers. -/
def resetState (box : LruBox K V) : LruBox K V :=
  { box with entryPool := none, buckets := none, ownsBuckets := false }

/-- A zeroed box over a core with any contents, before anything came from the heap. -/
def zeroed (core : LruCache K V) : LruBox K V where
  core := core
  entryPool := none
  buckets := none
  ownsBuckets := false
  cFlags := .cleared
  heap := .empty _

/-- `init`, on a zeroed box. -/
def init (cfg : LruBoxConfig w K V) (env : Allocators w LruArea) (memory : LruCache K V) :
    Status × LruBox K V :=
  let box := zeroed memory
  if cfg.validateConfig ≠ .ok then (cfg.validateConfig, box)
  else
    match allocateEntryPool cfg env box with
    | (.error poolStatus, box) => (poolStatus, box.resetState)
    | (.ok entryPool, box) =>
      match allocateBuckets cfg env box with
      | (.error bucketStatus, box) => (bucketStatus, (box.releaseStorage env).resetState)
      | (.ok buckets, box) =>
        let owns := (!cfg.entryPool || !cfg.buckets) || cfg.flags.ownsStorage
        let box :=
          { box with
            cFlags := { box.cFlags with ownsStorage := box.cFlags.ownsStorage || owns } }
        match LruCache.init cfg.coreConfig true box.core with
        | .error st => (st, (box.releaseStorage env).resetState)
        | .ok core =>
          (.ok,
            { box with
              core := core
              entryPool := some entryPool
              buckets := some buckets
              ownsBuckets := !cfg.buckets })

/-- A call of the interface between `init` and `deinit`. -/
def call (cfg : LruBoxConfig w K V) (box : LruBox K V) (c : LruCache.Call K V) :
    LruCache.Reply V × LruBox K V :=
  ((LruCache.call cfg.coreConfig box.core c).1,
    { box with core := (LruCache.call cfg.coreConfig box.core c).2 })

/-- `deinit`; `none` if `clear` does not return. -/
def deinit (cfg : LruBoxConfig w K V) (env : Allocators w LruArea) (box : LruBox K V) :
    Option (LruBox K V) :=
  match LruCache.clear cfg.coreConfig box.core with
  | (.hang, _) => none
  | (_, core) => some { (releaseStorage env { box with core := core }).resetState with
      cFlags := .cleared }

end LruBox

/-! ## What is obtained and what is released -/

namespace LruBoxConfig

open Allocators

/-- The blocks of the heap that `init` obtains. -/
def heapBlocks (cfg : LruBoxConfig w K V) : List (Block LruArea) :=
  ofHeap cfg.buckets cfg.arena .buckets ++ ofHeap cfg.entryPool cfg.arena .entryPool

/-- The configuration needs a block for one of the areas. -/
def needsStorage (cfg : LruBoxConfig w K V) : Bool := !cfg.entryPool || !cfg.buckets

/-- The bit `DYNAMIC_STORAGE` of `c_flags_` after `init`. -/
def dynamic (cfg : LruBoxConfig w K V) : Bool :=
  !cfg.arena && cfg.flags.dynamicStorage && cfg.needsStorage

/-- The blocks that `deinit` frees. -/
def releasedBlocks (cfg : LruBoxConfig w K V) (env : Allocators w LruArea) :
    List (Block LruArea) :=
  if (cfg.needsStorage || cfg.flags.ownsStorage) && (env.allowHeap && cfg.dynamic) then
    blockOf cfg.entryPool .entryPool :: if cfg.buckets then [] else [.obtained .buckets]
  else []

/-- **The condition**: the caller provides the entry pool alone, and there is no arena, so that the
bucket array is one of the heap. -/
def PoolGivenAlone (cfg : LruBoxConfig w K V) : Prop :=
  cfg.entryPool = true ∧ cfg.buckets = false ∧ cfg.arena = false

instance (cfg : LruBoxConfig w K V) : Decidable cfg.PoolGivenAlone :=
  inferInstanceAs (Decidable (_ ∧ _))

/-- Without an entry pool and without an arena the configuration has `DYNAMIC_STORAGE`. -/
theorem dynamicStorage_of_validate {cfg : LruBoxConfig w K V} (h : cfg.validateConfig = .ok)
    (hpool : cfg.entryPool = false) (harena : cfg.arena = false) :
    cfg.flags.dynamicStorage = true := by
  by_contra hdynamic
  unfold validateConfig at h
  split at h
  · cases h
  split at h
  · cases h
  rw [if_pos ⟨by simp [hpool], by simp [harena], hdynamic⟩] at h
  cases h

/-- **What is freed is what was obtained**, except where the entry pool is given alone. -/
theorem released_perm_iff {cfg : LruBoxConfig w K V} {env : Allocators w LruArea}
    (h : cfg.validateConfig = .ok) (hallow : cfg.heapBlocks ≠ [] → env.allowHeap = true) :
    (cfg.releasedBlocks env).Perm cfg.heapBlocks ↔ ¬ cfg.PoolGivenAlone := by
  have hdynamic := dynamicStorage_of_validate h
  unfold PoolGivenAlone
  rcases harena : cfg.arena with _ | _
  · rcases hpool : cfg.entryPool with _ | _
    · -- the entry pool is one of the heap, and `DYNAMIC_STORAGE` is set
      rw [iff_true_right (by simp)]
      have hallow : env.allowHeap = true := hallow (by simp [heapBlocks, ofHeap, hpool, harena])
      have hflag := hdynamic hpool harena
      rcases hbuckets : cfg.buckets with _ | _
      · simpa [releasedBlocks, heapBlocks, ofHeap, blockOf, dynamic, needsStorage, hpool, harena,
          hbuckets, hallow, hflag] using List.Perm.swap _ _ _
      · simp [releasedBlocks, heapBlocks, ofHeap, blockOf, dynamic, needsStorage, hpool, harena,
          hbuckets, hallow, hflag]
    · rcases hbuckets : cfg.buckets with _ | _
      · -- the entry pool of the caller is freed, or nothing is
        rw [iff_false_right (by simp)]
        intro hperm
        have hlen := hperm.length_eq
        simp only [releasedBlocks, heapBlocks, ofHeap, hpool, hbuckets, harena] at hlen
        split at hlen <;> simp at hlen
      · rw [iff_true_right (by simp)]
        simp [releasedBlocks, heapBlocks, ofHeap, dynamic, needsStorage, hpool, hbuckets]
  · rw [iff_true_right (by simp)]
    simp [releasedBlocks, heapBlocks, ofHeap, dynamic, harena]

end LruBoxConfig

namespace LruBox

open Allocators

/-- What `init` establishes and no call changes. -/
structure Stored (cfg : LruBoxConfig w K V) (env : Allocators w LruArea) (box : LruBox K V) :
    Prop where
  entryPool : box.entryPool = some (blockOf cfg.entryPool .entryPool)
  buckets : box.buckets = some (blockOf cfg.buckets .buckets)
  ownsBuckets : box.ownsBuckets = !cfg.buckets
  ownsStorage : box.cFlags.ownsStorage = (cfg.needsStorage || cfg.flags.ownsStorage)
  dynamicStorage : box.cFlags.dynamicStorage = cfg.dynamic
  holds : box.heap.Holds {b | b ∈ cfg.heapBlocks}
  allowHeap : cfg.heapBlocks ≠ [] → env.allowHeap = true

variable {cfg : LruBoxConfig w K V} {env : Allocators w LruArea} {memory : LruCache K V}
  {box box' : LruBox K V}

/-- The bits of `c_flags_` after the two areas were provided. -/
theorem flags_provided (cfg : LruBoxConfig w K V) :
    let flags := if cfg.entryPool then .cleared else obtainedFlags cfg .cleared
    let flags := if cfg.buckets then flags else obtainedFlags cfg flags
    flags.ownsStorage = false ∧ flags.dynamicStorage = cfg.dynamic := by
  unfold obtainedFlags LruBoxConfig.dynamic LruBoxConfig.needsStorage BoxFlags.cleared
  rcases cfg.entryPool with _ | _ <;> rcases cfg.buckets with _ | _ <;>
    rcases cfg.arena with _ | _ <;> rcases cfg.flags.dynamicStorage with _ | _ <;> decide

/-- What `allocate_entry_pool` does when it returns a block. -/
theorem allocateEntryPool_ok {ptr : Block LruArea} {blocks : List (Block LruArea)}
    (h : allocateEntryPool cfg env box = (.ok ptr, box'))
    (hheap : box.heap.Holds {b | b ∈ blocks}) (hfresh : .obtained .entryPool ∉ blocks) :
    ptr = blockOf cfg.entryPool .entryPool ∧
      box'.core = box.core ∧
      box'.cFlags = (if cfg.entryPool then box.cFlags else obtainedFlags cfg box.cFlags) ∧
      box'.heap.Holds {b | b ∈ ofHeap cfg.entryPool cfg.arena .entryPool ++ blocks} ∧
      (cfg.entryPool = false → cfg.arena = false → env.allowHeap = true) := by
  unfold allocateEntryPool at h
  split at h
  · cases h
  · next hprovide =>
    cases h
    obtain ⟨hptr, hholds, hallow⟩ := provide_ok hprovide hheap hfresh
    exact ⟨hptr, rfl, rfl, hholds, hallow⟩

/-- What `allocate_buckets` does when it returns a block. -/
theorem allocateBuckets_ok {ptr : Block LruArea} {blocks : List (Block LruArea)}
    (h : allocateBuckets cfg env box = (.ok ptr, box'))
    (hheap : box.heap.Holds {b | b ∈ blocks}) (hfresh : .obtained .buckets ∉ blocks) :
    ptr = blockOf cfg.buckets .buckets ∧
      box'.core = box.core ∧
      box'.cFlags = (if cfg.buckets then box.cFlags else obtainedFlags cfg box.cFlags) ∧
      box'.heap.Holds {b | b ∈ ofHeap cfg.buckets cfg.arena .buckets ++ blocks} ∧
      (cfg.buckets = false → cfg.arena = false → env.allowHeap = true) := by
  unfold allocateBuckets at h
  split at h
  · cases h
  · next hprovide =>
    cases h
    obtain ⟨hptr, hholds, hallow⟩ := provide_ok hprovide hheap hfresh
    exact ⟨hptr, rfl, rfl, hholds, hallow⟩

/-- A refused block fails `init`. -/
theorem allocateEntryPool_error {st : Status}
    (h : allocateEntryPool cfg env box = (.error st, box')) : st ≠ .ok := by
  unfold allocateEntryPool at h
  split at h
  · next hprovide =>
    cases h
    exact provide_error hprovide
  · cases h

theorem allocateBuckets_error {st : Status}
    (h : allocateBuckets cfg env box = (.error st, box')) : st ≠ .ok := by
  unfold allocateBuckets at h
  split at h
  · next hprovide =>
    cases h
    exact provide_error hprovide
  · cases h

/-- **A successful `init`**: the configuration is valid, and the areas have their blocks. -/
theorem init_ok (h : init cfg env memory = (.ok, box)) :
    cfg.validateConfig = .ok ∧ Stored cfg env box ∧
      LruCache.init cfg.coreConfig true memory = .ok box.core := by
  unfold init at h
  dsimp only at h
  split at h
  · next hinvalid => exact absurd (congrArg Prod.fst h) hinvalid
  next hvalid =>
  refine ⟨not_not.mp hvalid, ?_⟩
  split at h
  · next hpool => exact absurd (congrArg Prod.fst h) (allocateEntryPool_error hpool)
  next hpool =>
  split at h
  · next hbuckets => exact absurd (congrArg Prod.fst h) (allocateBuckets_error hbuckets)
  next hbuckets =>
  -- the pool comes first, then the buckets: each adds its own block to those held
  obtain ⟨rfl, hcore₁, hflags₁, hheap₁, hallow₁⟩ :=
    allocateEntryPool_ok hpool Ledger.holds_nil List.not_mem_nil
  obtain ⟨rfl, hcore₂, hflags₂, hheap₂, hallow₂⟩ := allocateBuckets_ok hbuckets hheap₁ (by
    rw [ofHeap]
    split <;> simp)
  rw [List.append_nil] at hheap₂
  rw [hflags₁] at hflags₂
  obtain ⟨howns, hdynamic⟩ := flags_provided cfg
  split at h
  · next hcore =>
    unfold LruCache.init at hcore
    split at hcore
    · cases hcore
      cases h
    · cases hcore
  next core hcore =>
    have hinit : LruCache.init cfg.coreConfig true memory = .ok core := by
      rwa [hcore₂, hcore₁] at hcore
    cases h
    refine ⟨?_, hinit⟩
    exact
      { entryPool := rfl
        buckets := rfl
        ownsBuckets := rfl
        ownsStorage := by
          rw [hflags₂]
          exact (congrArg (· || _) howns).trans (Bool.false_or _)
        dynamicStorage := by
          rw [hflags₂]
          exact hdynamic
        holds := hheap₂
        allowHeap := by
          intro hne
          rw [LruBoxConfig.heapBlocks, ne_eq, List.append_eq_nil_iff, not_and_or] at hne
          rcases hne with hne | hne
          · exact hallow₂ (of_ofHeap_ne_nil hne).1 (of_ofHeap_ne_nil hne).2
          · exact hallow₁ (of_ofHeap_ne_nil hne).1 (of_ofHeap_ne_nil hne).2 }

/-- No call touches the storage. -/
theorem Stored.call (h : Stored cfg env box) (c : LruCache.Call K V) :
    Stored cfg env (call cfg box c).2 :=
  ⟨h.entryPool, h.buckets, h.ownsBuckets, h.ownsStorage, h.dynamicStorage, h.holds, h.allowHeap⟩

/-- `deinit` frees the blocks of `releasedBlocks`. -/
theorem Stored.deinit_heap (h : Stored cfg env box) (hdeinit : deinit cfg env box = some box') :
    box'.heap = box.heap.destroyAll (cfg.releasedBlocks env) := by
  unfold deinit at hdeinit
  split at hdeinit
  · cases hdeinit
  cases hdeinit
  show (releaseStorage env _).heap = _
  unfold releaseStorage LruBoxConfig.releasedBlocks
  dsimp only
  rw [h.ownsStorage, h.dynamicStorage, h.entryPool, h.buckets, h.ownsBuckets]
  unfold releaseOwnedBlock
  by_cases howns : (cfg.needsStorage || cfg.flags.ownsStorage) = false
  · simp [howns]
  by_cases hfrees : (env.allowHeap && cfg.dynamic) = true
  · rcases cfg.buckets with _ | _ <;> simp [howns, hfrees, blockOf]
  · simp [howns, hfrees]

/-- **`deinit` after any calls** frees what was obtained from the heap, once each and nothing else,
exactly if the entry pool is not the only block of the caller. -/
theorem deinit_settled_iff (hinit : init cfg env memory = (.ok, box))
    (calls : List (LruCache.Call K V))
    (hdeinit : deinit cfg env (Mealy.final (call cfg) box calls) = some box') :
    box'.heap.Settled ↔ ¬ cfg.PoolGivenAlone := by
  obtain ⟨hvalid, hstored, -⟩ := init_ok hinit
  have hfinal : Stored cfg env (Mealy.final (call cfg) box calls) :=
    (Mealy.everyCall_true box calls).final_invariant (Stored cfg env) (fun _ c h _ => h.call c)
      hstored
  have hnodup : cfg.heapBlocks.Nodup := by
    unfold LruBoxConfig.heapBlocks ofHeap
    split <;> split <;> simp
  rw [hfinal.deinit_heap hdeinit, hfinal.holds.settled_destroyAll_iff_perm hnodup,
    LruBoxConfig.released_perm_iff hvalid hstored.allowHeap]

/-- **`deinit` returns** after any calls, for a hash with a compatible key equality and copies that
are copies. -/
theorem deinit_returns (hlaw : cfg.hashEqPolicy.Lawful) (hkey : cfg.keyPolicy.Faithful)
    (hval : cfg.valuePolicy.Faithful) (hinit : init cfg env memory = (.ok, box))
    (calls : List (LruCache.Call K V)) :
    ∃ box', deinit cfg env (Mealy.final (call cfg) box calls) = some box' := by
  obtain ⟨-, -, hcore⟩ := init_ok hinit
  obtain ⟨hcap, hpos⟩ : 0 < cfg.coreConfig.capacity ∧ 0 < cfg.coreConfig.bucketCount := by
    unfold LruCache.init at hcore
    split at hcore
    · cases hcore
    · next hargs =>
      push Not at hargs
      omega
  have hshaped : LruCache.Shaped cfg.coreConfig box.core := by
    obtain ⟨s, free, hs, hshape, -⟩ := LruCache.init_spec hcap hpos memory
    obtain rfl : s = box.core := Except.ok.inj (hs.symm.trans hcore)
    exact ⟨free, [], _, hshape⟩
  obtain ⟨free, lru, chain, hshape⟩ : LruCache.Shaped cfg.coreConfig
      (Mealy.final (call cfg) box calls).core :=
    (Mealy.everyCall_true box calls).final_invariant
      (fun box => LruCache.Shaped cfg.coreConfig box.core)
      (fun _ c h _ => (h.call hlaw hpos hcap hkey hval c).2) hshaped
  obtain ⟨s', -, -, hclear, -⟩ := LruCache.clear_spec hpos hshape
  exact ⟨_, by rw [deinit, hclear]⟩

end LruBox

end Memkit
