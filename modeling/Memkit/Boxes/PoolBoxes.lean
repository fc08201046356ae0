import Memkit.Core.HeapBlocks
import Memkit.Pools.HandlePool
import Memkit.Pools.ObjPool

/-! # The pool boxes

`c_api/objpool_box.hpp` and `c_api/handle_pool_box.hpp`, which are written alike: an element slab and
two arrays of metadata, each provided by the caller, obtained from an arena or obtained from the
heap. The metadata of the object pool are the free stack and the used bits, those of the handle pool
the generations and the free stack.

* **`PoolStore`** — the storage of either box, and what `init` and `deinit` do to it.
* **`ObjPoolBox`**, **`HandlePoolBox`** — the two boxes, over their cores.
* **`PoolBoxConfig.MetaTogether`** — the configurations that release what they obtain. -/

namespace Memkit

variable {w : ℕ}

/-- The areas of storage of a pool, in the order in which they are obtained. -/
inductive PoolArea
  | storage
  | firstMeta
  | secondMeta
  deriving DecidableEq, Repr

/-- `objpool_config_t` and `handle_pool_config_t`, for the storage. -/
structure PoolBoxConfig (w : ℕ) where
  elemSize : BitVec w
  capacity : BitVec w
  /-- Whether `storage` is not null. -/
  storage : Bool
  storageBytes : BitVec w
  /-- Whether `free_stack`, or `generations`, is not null. -/
  firstMeta : Bool
  firstMetaBytes : BitVec w
  /-- Whether `used_bits`, or `free_stack`, is not null. -/
  secondMeta : Bool
  secondMetaBytes : BitVec w
  /-- Whether `arena` is not null. -/
  arena : Bool
  flags : BoxFlags

/-- The sizes of the metadata of a pool, by its capacity. -/
structure MetaSizes (w : ℕ) where
  firstMeta : BitVec w → BitVec w
  secondMeta : BitVec w → BitVec w

/-- `validate_config`. -/
def PoolBoxConfig.validateConfig (cfg : PoolBoxConfig w) (sizes : MetaSizes w) : Status :=
  if cfg.elemSize = 0 ∨ cfg.capacity = 0 then .invalid
  else if cfg.storage ∧ cfg.storageBytes < cfg.elemSize * cfg.capacity then .invalid
  else if ¬ cfg.storage ∧ ¬ cfg.arena ∧ ¬ cfg.flags.dynamicStorage then .invalid
  else if cfg.firstMeta ∧ cfg.firstMetaBytes < sizes.firstMeta cfg.capacity then .invalid
  else if cfg.secondMeta ∧ cfg.secondMetaBytes < sizes.secondMeta cfg.capacity then .invalid
  else if (¬ cfg.firstMeta ∨ ¬ cfg.secondMeta) ∧ ¬ cfg.arena ∧ ¬ cfg.flags.dynamicStorage ∧
      (¬ cfg.storage ∨ ¬ cfg.flags.wantsOwnedStorage) then .invalid
  else .ok

/-- The storage pointers of the core, `c_flags_`, and the heap. -/
structure PoolStore where
  /-- `core_.storage()`. -/
  storage : Option (Block PoolArea)
  /-- `core_.free_stack()`, or `core_.generations()`. -/
  firstMeta : Option (Block PoolArea)
  /-- `core_.used_bits()`, or `core_.free_stack()`. -/
  secondMeta : Option (Block PoolArea)
  /-- `c_flags_`. -/
  cFlags : BoxFlags
  heap : Ledger (Block PoolArea)

namespace PoolStore

/-- The bits `ARENA_STORAGE` and `DYNAMIC_STORAGE` after a block was obtained. -/
def obtainedFlags (cfg : PoolBoxConfig w) (flags : BoxFlags) : BoxFlags :=
  if cfg.arena then { flags with arenaStorage := true }
  else if cfg.flags.dynamicStorage then { flags with dynamicStorage := true }
  else flags

/-- `allocate_storage`; `flagged` is what it does to `c_flags_` when it obtains a block. -/
def allocateStorage (flagged : PoolBoxConfig w → BoxFlags → BoxFlags) (cfg : PoolBoxConfig w)
    (env : Allocators w PoolArea) (store : PoolStore) :
    Except Status (Block PoolArea) × PoolStore :=
  match env.provide cfg.storage cfg.arena .storage (cfg.elemSize * cfg.capacity) store.heap with
  | (.error status, heap) => (.error status, { store with heap := heap })
  | (.ok ptr, heap) =>
    (.ok ptr,
      { store with
        heap := heap
        cFlags := if cfg.storage then store.cFlags else flagged cfg store.cFlags })

/-- `allocate_meta`: a failure for the second array gives the first one back. -/
def allocateMeta (sizes : MetaSizes w) (cfg : PoolBoxConfig w) (env : Allocators w PoolArea)
    (store : PoolStore) : Except Status (Block PoolArea × Block PoolArea) × PoolStore :=
  if cfg.firstMeta ∧ cfg.secondMeta then (.ok (.given .firstMeta, .given .secondMeta), store)
  else
    match env.provide cfg.firstMeta cfg.arena .firstMeta (sizes.firstMeta cfg.capacity)
        store.heap with
    | (.error status, heap) => (.error status, { store with heap := heap })
    | (.ok first, heap) =>
      match env.provide cfg.secondMeta cfg.arena .secondMeta (sizes.secondMeta cfg.capacity)
          heap with
      | (.error status, heap) =>
        (.error status,
          { store with
            heap := if !cfg.firstMeta && !cfg.arena then heap.destroy first else heap })
      | (.ok second, heap) =>
        (.ok (first, second),
          { store with
            heap := heap
            cFlags := obtainedFlags cfg { store.cFlags with ownsMeta := true } })

/-- `release_storage`. -/
def releaseStorage (env : Allocators w PoolArea) (store : PoolStore) : PoolStore :=
  if store.cFlags.ownsStorage = false then store
  else
    { store with
      heap := env.releaseOwnedBlock store.cFlags.dynamicStorage store.storage store.heap }

/-- `release_meta`. -/
def releaseMeta (env : Allocators w PoolArea) (store : PoolStore) : PoolStore :=
  if store.cFlags.ownsMeta = false then store
  else
    let heap := env.releaseOwnedBlock store.cFlags.dynamicStorage store.firstMeta store.heap
    { store with
      heap := env.releaseOwnedBlock store.cFlags.dynamicStorage store.secondMeta heap }

/-- `core_.reset_state()`, for the storage pointers. -/
def resetState (store : PoolStore) : PoolStore :=
  { store with storage := none, firstMeta := none, secondMeta := none }

/-- The storage of a zeroed box, before anything came from the heap. -/
def zeroed : PoolStore := ⟨none, none, none, .cleared, .empty _⟩

/-- `init`, on a zeroed box; `coreInit` is the result of `core_.init`. -/
def init {σ : Type*} (sizes : MetaSizes w) (flagged : PoolBoxConfig w → BoxFlags → BoxFlags)
    (cfg : PoolBoxConfig w) (env : Allocators w PoolArea) (coreInit : Except Status σ) :
    Except Status σ × PoolStore :=
  if cfg.validateConfig sizes ≠ .ok then (.error (cfg.validateConfig sizes), zeroed)
  else
    match allocateStorage flagged cfg env zeroed with
    | (.error storageStatus, store) => (.error storageStatus, store.resetState)
    | (.ok storage, store) =>
      match allocateMeta sizes cfg env store with
      | (.error metaStatus, store) => (.error metaStatus, (store.releaseStorage env).resetState)
      | (.ok (first, second), store) =>
        match coreInit with
        | .error st => (.error st, ((store.releaseMeta env).releaseStorage env).resetState)
        | .ok core =>
          let transferred := cfg.storage && cfg.flags.ownsStorage
          (.ok core,
            { store with
              storage := some storage
              firstMeta := some first
              secondMeta := some second
              cFlags :=
                { store.cFlags with
                  ownsStorage := store.cFlags.ownsStorage || transferred } })

/-- `deinit`, for the storage. -/
def deinit (env : Allocators w PoolArea) (store : PoolStore) : PoolStore :=
  { ((store.releaseStorage env).releaseMeta env).resetState with cFlags := .cleared }

end PoolStore

/-! ## What is obtained and what is released -/

namespace PoolBoxConfig

open Allocators

/-- The blocks of the heap that `init` obtains. -/
def heapBlocks (cfg : PoolBoxConfig w) : List (Block PoolArea) :=
  ofHeap cfg.secondMeta cfg.arena .secondMeta ++
    (ofHeap cfg.firstMeta cfg.arena .firstMeta ++ ofHeap cfg.storage cfg.arena .storage)

/-- The configuration needs a block for some metadata. -/
def needsMeta (cfg : PoolBoxConfig w) : Bool := !cfg.firstMeta || !cfg.secondMeta

/-- The bit `DYNAMIC_STORAGE` of `c_flags_` after `init`. -/
def dynamic (cfg : PoolBoxConfig w) : Bool :=
  !cfg.arena && cfg.flags.dynamicStorage && (!cfg.storage || cfg.needsMeta)

/-- The blocks that `deinit` frees. -/
def releasedBlocks (cfg : PoolBoxConfig w) (env : Allocators w PoolArea) : List (Block PoolArea) :=
  (if (!cfg.storage || cfg.flags.ownsStorage) && (env.allowHeap && cfg.dynamic) then
    [blockOf cfg.storage .storage]
  else []) ++
    if cfg.needsMeta && (env.allowHeap && cfg.dynamic) then
      [blockOf cfg.firstMeta .firstMeta, blockOf cfg.secondMeta .secondMeta]
    else []

/-- **The condition**: there is an arena, or the caller provides both arrays of metadata, or neither
of them while the flags have `DYNAMIC_STORAGE` and not `OWNS_STORAGE` for a slab of the caller. -/
def MetaTogether (cfg : PoolBoxConfig w) : Prop :=
  cfg.arena = true ∨ (cfg.firstMeta = true ∧ cfg.secondMeta = true) ∨
    (cfg.firstMeta = false ∧ cfg.secondMeta = false ∧ cfg.flags.dynamicStorage = true ∧
      ¬ (cfg.storage = true ∧ cfg.flags.ownsStorage = true))

instance (cfg : PoolBoxConfig w) : Decidable cfg.MetaTogether :=
  inferInstanceAs (Decidable (_ ∨ _))

variable {cfg : PoolBoxConfig w} {sizes : MetaSizes w} {env : Allocators w PoolArea}

/-- Without a slab and without an arena the configuration has `DYNAMIC_STORAGE`. -/
theorem dynamicStorage_of_validate (h : cfg.validateConfig sizes = .ok)
    (hstorage : cfg.storage = false) (harena : cfg.arena = false) :
    cfg.flags.dynamicStorage = true := by
  by_contra hdynamic
  unfold validateConfig at h
  split at h
  · cases h
  split at h
  · cases h
  rw [if_pos ⟨by simp [hstorage], by simp [harena], hdynamic⟩] at h
  cases h

/-- Without an arena, and with one array of metadata of the caller, that array is freed, or the other
one is not. -/
theorem not_released_perm_of_one (harena : cfg.arena = false)
    (hone : cfg.firstMeta = !cfg.secondMeta)
    (hallow : cfg.heapBlocks ≠ [] → env.allowHeap = true) :
    ¬ (cfg.releasedBlocks env).Perm cfg.heapBlocks := by
  have hne : cfg.heapBlocks ≠ [] := by
    rcases hsecond : cfg.secondMeta with _ | _
    · simp [heapBlocks, ofHeap, harena, hsecond]
    · simp [heapBlocks, ofHeap, harena, hone, hsecond]
  have hallow := hallow hne
  have hneeds : cfg.needsMeta = true := by
    rw [needsMeta, hone]
    cases cfg.secondMeta <;> rfl
  intro hperm
  rcases hflag : cfg.flags.dynamicStorage with _ | _
  · -- the array from the heap is not freed
    have hreleased : cfg.releasedBlocks env = [] := by
      simp [releasedBlocks, dynamic, hflag]
    rw [hreleased] at hperm
    exact hne hperm.nil_eq.symm
  · -- the array of the caller is freed
    rcases hsecond : cfg.secondMeta with _ | _
    · have hgiven : Block.given PoolArea.firstMeta ∈ cfg.releasedBlocks env := by
        simp [releasedBlocks, dynamic, harena, hflag, hneeds, hallow, blockOf, hone, hsecond]
      have hmem := hperm.mem_iff.mp hgiven
      simp [heapBlocks, ofHeap, harena, hone, hsecond] at hmem
    · have hgiven : Block.given PoolArea.secondMeta ∈ cfg.releasedBlocks env := by
        simp [releasedBlocks, dynamic, harena, hflag, hneeds, hallow, blockOf, hsecond]
      have hmem := hperm.mem_iff.mp hgiven
      simp [heapBlocks, ofHeap, harena, hone, hsecond] at hmem

/-- Without an arena, and with both arrays of metadata from the heap. -/
theorem released_perm_iff_of_none (harena : cfg.arena = false)
    (hfirst : cfg.firstMeta = false) (hsecond : cfg.secondMeta = false)
    (hallow : cfg.heapBlocks ≠ [] → env.allowHeap = true) :
    (cfg.releasedBlocks env).Perm cfg.heapBlocks ↔
      cfg.flags.dynamicStorage = true ∧
        ¬ (cfg.storage = true ∧ cfg.flags.ownsStorage = true) := by
  have hallow : env.allowHeap = true := hallow (by simp [heapBlocks, ofHeap, harena, hsecond])
  rcases hflag : cfg.flags.dynamicStorage with _ | _
  · refine iff_of_false (fun hperm => ?_) (by simp)
    have hlen := hperm.length_eq
    simp [releasedBlocks, heapBlocks, ofHeap, dynamic, harena, hflag, hsecond] at hlen
  rcases hstorage : cfg.storage with _ | _
  · refine iff_of_true ?_ (by simp)
    have hreverse : cfg.releasedBlocks env = cfg.heapBlocks.reverse := by
      simp [releasedBlocks, heapBlocks, ofHeap, blockOf, dynamic, needsMeta, harena, hflag, hfirst,
        hsecond, hstorage, hallow]
    rw [hreverse]
    exact List.reverse_perm _
  rcases howns : cfg.flags.ownsStorage with _ | _
  · refine iff_of_true ?_ (by simp)
    have hreverse : cfg.releasedBlocks env = cfg.heapBlocks.reverse := by
      simp [releasedBlocks, heapBlocks, ofHeap, blockOf, dynamic, needsMeta, harena, hflag, hfirst,
        hsecond, hstorage, hallow, howns]
    rw [hreverse]
    exact List.reverse_perm _
  · -- the slab of the caller is freed
    refine iff_of_false (fun hperm => ?_) (by simp)
    have hlen := hperm.length_eq
    simp [releasedBlocks, heapBlocks, ofHeap, dynamic, needsMeta, harena, hflag, hfirst, hsecond,
      hstorage, hallow, howns] at hlen

/-- **What is freed is what was obtained** exactly in these configurations. -/
theorem released_perm_iff (h : cfg.validateConfig sizes = .ok)
    (hallow : cfg.heapBlocks ≠ [] → env.allowHeap = true) :
    (cfg.releasedBlocks env).Perm cfg.heapBlocks ↔ cfg.MetaTogether := by
  unfold MetaTogether
  rcases harena : cfg.arena with _ | _
  · rcases hfirst : cfg.firstMeta with _ | _ <;> rcases hsecond : cfg.secondMeta with _ | _
    · rw [released_perm_iff_of_none harena hfirst hsecond hallow]
      simp
    · exact iff_of_false (not_released_perm_of_one harena (by rw [hfirst, hsecond]; rfl) hallow)
        (by simp)
    · exact iff_of_false (not_released_perm_of_one harena (by rw [hfirst, hsecond]; rfl) hallow)
        (by simp)
    · rw [iff_true_right (by simp)]
      rcases hstorage : cfg.storage with _ | _
      · have hallow : env.allowHeap = true :=
          hallow (by simp [heapBlocks, ofHeap, harena, hstorage])
        simp [releasedBlocks, heapBlocks, ofHeap, blockOf, dynamic, needsMeta, harena, hfirst,
          hsecond, hstorage, hallow, dynamicStorage_of_validate h hstorage harena]
      · simp [releasedBlocks, heapBlocks, ofHeap, dynamic, needsMeta, hfirst, hsecond, hstorage]
  · rw [iff_true_right (.inl rfl)]
    simp [releasedBlocks, heapBlocks, ofHeap, dynamic, harena]

end PoolBoxConfig

namespace PoolStore

open Allocators

/-- What `init` establishes and no call changes. -/
structure Stored (cfg : PoolBoxConfig w) (env : Allocators w PoolArea) (store : PoolStore) :
    Prop where
  storage : store.storage = some (blockOf cfg.storage .storage)
  firstMeta : store.firstMeta = some (blockOf cfg.firstMeta .firstMeta)
  secondMeta : store.secondMeta = some (blockOf cfg.secondMeta .secondMeta)
  ownsStorage : store.cFlags.ownsStorage = (!cfg.storage || cfg.flags.ownsStorage)
  ownsMeta : store.cFlags.ownsMeta = cfg.needsMeta
  dynamicStorage : store.cFlags.dynamicStorage = cfg.dynamic
  holds : store.heap.Holds {b | b ∈ cfg.heapBlocks}
  allowHeap : cfg.heapBlocks ≠ [] → env.allowHeap = true

variable {σ : Type*} {sizes : MetaSizes w} {flagged : PoolBoxConfig w → BoxFlags → BoxFlags}
  {cfg : PoolBoxConfig w} {env : Allocators w PoolArea} {coreInit : Except Status σ} {core : σ}
  {store store' : PoolStore} {blocks : List (Block PoolArea)}

/-- What `allocate_storage` does when it returns a block. -/
theorem allocateStorage_ok {ptr : Block PoolArea}
    (h : allocateStorage flagged cfg env store = (.ok ptr, store'))
    (hheap : store.heap.Holds {b | b ∈ blocks}) (hfresh : .obtained .storage ∉ blocks) :
    ptr = blockOf cfg.storage .storage ∧
      store'.cFlags = (if cfg.storage then store.cFlags else flagged cfg store.cFlags) ∧
      store'.heap.Holds {b | b ∈ ofHeap cfg.storage cfg.arena .storage ++ blocks} ∧
      (cfg.storage = false → cfg.arena = false → env.allowHeap = true) := by
  unfold allocateStorage at h
  split at h
  · cases h
  · next hprovide =>
    cases h
    obtain ⟨hptr, hholds, hallow⟩ := provide_ok hprovide hheap hfresh
    exact ⟨hptr, rfl, hholds, hallow⟩

/-- What `allocate_meta` does when it returns two blocks. -/
theorem allocateMeta_ok {first second : Block PoolArea}
    (h : allocateMeta sizes cfg env store = (.ok (first, second), store'))
    (hheap : store.heap.Holds {b | b ∈ blocks}) (hfirst : .obtained .firstMeta ∉ blocks)
    (hsecond : .obtained .secondMeta ∉ blocks) :
    first = blockOf cfg.firstMeta .firstMeta ∧ second = blockOf cfg.secondMeta .secondMeta ∧
      store'.cFlags = (if cfg.needsMeta then
        obtainedFlags cfg { store.cFlags with ownsMeta := true } else store.cFlags) ∧
      store'.heap.Holds {b | b ∈ ofHeap cfg.secondMeta cfg.arena .secondMeta ++
        (ofHeap cfg.firstMeta cfg.arena .firstMeta ++ blocks)} ∧
      (cfg.firstMeta = false → cfg.arena = false → env.allowHeap = true) ∧
      (cfg.secondMeta = false → cfg.arena = false → env.allowHeap = true) := by
  unfold allocateMeta at h
  split at h
  · next hboth =>
    cases h
    have hneeds : cfg.needsMeta = false := by
      simp [PoolBoxConfig.needsMeta, hboth]
    refine ⟨by simp [blockOf, hboth], by simp [blockOf, hboth], by simp [hneeds], ?_, ?_, ?_⟩
    · simpa [ofHeap, hboth] using hheap
    · simp [hboth]
    · simp [hboth]
  next hneeds =>
  split at h
  · cases h
  next hprovide =>
  split at h
  · cases h
  next hprovide' =>
  cases h
  obtain ⟨rfl, hheap₁, hallow₁⟩ := provide_ok hprovide hheap hfirst
  obtain ⟨rfl, hheap₂, hallow₂⟩ := provide_ok hprovide' hheap₁ (by
    rw [ofHeap]
    split
    · exact hsecond
    · simpa using hsecond)
  refine ⟨rfl, rfl, ?_, hheap₂, hallow₁, hallow₂⟩
  have hneeds : cfg.needsMeta = true := by
    unfold PoolBoxConfig.needsMeta
    rcases hf : cfg.firstMeta with _ | _ <;> rcases hs : cfg.secondMeta with _ | _ <;>
      simp_all
  rw [if_pos hneeds]

/-- The bits of `c_flags_` once the slab and the metadata were provided. -/
theorem flags_provided (hvalid : cfg.validateConfig sizes = .ok)
    (hflagged : cfg.arena = true ∨ cfg.flags.dynamicStorage = true →
      flagged cfg .cleared = obtainedFlags cfg { BoxFlags.cleared with ownsStorage := true }) :
    let flags := if cfg.storage then .cleared else flagged cfg .cleared
    let flags :=
      if cfg.needsMeta then obtainedFlags cfg { flags with ownsMeta := true } else flags
    flags.ownsStorage = !cfg.storage ∧ flags.ownsMeta = cfg.needsMeta ∧
      flags.dynamicStorage = cfg.dynamic := by
  have hflagged : cfg.storage = false →
      flagged cfg .cleared = obtainedFlags cfg { BoxFlags.cleared with ownsStorage := true } := by
    intro hstorage
    refine hflagged ?_
    rcases harena : cfg.arena with _ | _
    · exact .inr (PoolBoxConfig.dynamicStorage_of_validate hvalid hstorage harena)
    · exact .inl rfl
  unfold PoolBoxConfig.dynamic
  rcases hstorage : cfg.storage with _ | _
  · rw [hflagged hstorage]
    unfold obtainedFlags BoxFlags.cleared
    rcases cfg.needsMeta with _ | _ <;> rcases cfg.arena with _ | _ <;>
      rcases cfg.flags.dynamicStorage with _ | _ <;> decide
  · unfold obtainedFlags BoxFlags.cleared
    rcases cfg.needsMeta with _ | _ <;> rcases cfg.arena with _ | _ <;>
      rcases cfg.flags.dynamicStorage with _ | _ <;> exact ⟨rfl, rfl, rfl⟩

/-- **A successful `init`**: the configuration is valid, and the areas have their blocks. -/
theorem init_ok (hflagged : cfg.arena = true ∨ cfg.flags.dynamicStorage = true →
      flagged cfg .cleared = obtainedFlags cfg { BoxFlags.cleared with ownsStorage := true })
    (h : init sizes flagged cfg env coreInit = (.ok core, store)) :
    cfg.validateConfig sizes = .ok ∧ Stored cfg env store := by
  unfold init at h
  split at h
  · cases h
  next hvalid =>
  have hvalid := not_not.mp hvalid
  refine ⟨hvalid, ?_⟩
  split at h
  · cases h
  next hstorage =>
  split at h
  · cases h
  next hmeta =>
  obtain ⟨rfl, hflags₁, hheap₁, hallow₁⟩ :=
    allocateStorage_ok hstorage Ledger.holds_nil List.not_mem_nil
  obtain ⟨rfl, rfl, hflags₂, hheap₂, hallow₂, hallow₃⟩ :=
    allocateMeta_ok hmeta hheap₁ (notMem_ofHeap (by decide)) (notMem_ofHeap (by decide))
  rw [List.append_nil] at hheap₂
  rw [hflags₁] at hflags₂
  obtain ⟨howns, hmetaOwned, hdynamic⟩ := flags_provided hvalid hflagged
  split at h
  · cases h
  cases h
  exact
    { storage := rfl
      firstMeta := rfl
      secondMeta := rfl
      ownsStorage := by
        rw [hflags₂]
        refine (congrArg (· || _) howns).trans ?_
        cases cfg.storage <;> rfl
      ownsMeta := by
        rw [hflags₂]
        exact hmetaOwned
      dynamicStorage := by
        rw [hflags₂]
        exact hdynamic
      holds := hheap₂
      allowHeap := by
        intro hne
        rw [PoolBoxConfig.heapBlocks, ne_eq, List.append_eq_nil_iff, List.append_eq_nil_iff,
          not_and_or, not_and_or] at hne
        rcases hne with hne | hne | hne
        · exact hallow₃ (of_ofHeap_ne_nil hne).1 (of_ofHeap_ne_nil hne).2
        · exact hallow₂ (of_ofHeap_ne_nil hne).1 (of_ofHeap_ne_nil hne).2
        · exact hallow₁ (of_ofHeap_ne_nil hne).1 (of_ofHeap_ne_nil hne).2 }

/-- `deinit` frees the blocks of `releasedBlocks`. -/
theorem Stored.deinit_heap (h : Stored cfg env store) :
    (deinit env store).heap = store.heap.destroyAll (cfg.releasedBlocks env) := by
  unfold deinit resetState releaseMeta releaseStorage PoolBoxConfig.releasedBlocks
  dsimp only
  rw [h.ownsStorage]
  unfold releaseOwnedBlock
  by_cases howns : (!cfg.storage || cfg.flags.ownsStorage) = false
  · rw [if_pos howns, h.ownsMeta, h.dynamicStorage, h.firstMeta, h.secondMeta]
    by_cases hmeta : cfg.needsMeta = false
    · simp [howns, hmeta]
    · by_cases hfrees : (env.allowHeap && cfg.dynamic) = true
      · simp [howns, hmeta, hfrees]
      · simp [hmeta, hfrees]
  · rw [if_neg howns]
    dsimp only
    rw [h.ownsMeta, h.dynamicStorage, h.storage, h.firstMeta, h.secondMeta]
    by_cases hmeta : cfg.needsMeta = false
    · by_cases hfrees : (env.allowHeap && cfg.dynamic) = true
      · simp [howns, hmeta, hfrees]
      · simp [hmeta, hfrees]
    · by_cases hfrees : (env.allowHeap && cfg.dynamic) = true
      · simp [howns, hmeta, hfrees]
      · simp [hmeta, hfrees]

/-- **`deinit` after `init`** frees what was obtained from the heap, once each and nothing else,
exactly in the configurations of `MetaTogether`. -/
theorem Stored.deinit_settled_iff (hvalid : cfg.validateConfig sizes = .ok)
    (h : Stored cfg env store) : (deinit env store).heap.Settled ↔ cfg.MetaTogether := by
  have hnodup : cfg.heapBlocks.Nodup := by
    unfold PoolBoxConfig.heapBlocks ofHeap
    split <;> split <;> split <;> simp
  rw [h.deinit_heap, h.holds.settled_destroyAll_iff_perm hnodup,
    PoolBoxConfig.released_perm_iff hvalid h.allowHeap]

end PoolStore

/-! ## The two boxes -/

/-- A core over the storage, which obtains and releases no memory itself. -/
structure PoolCore (σ ι ο : Type*) where
  /-- `core_.init`. -/
  init : Except Status σ
  call : σ → ι → ο × σ
  /-- What `deinit` does to the elements. -/
  clear : σ → σ

namespace PoolCore

variable {σ ι ο : Type*}

/-- A call of the interface of a box between `init` and `deinit`. -/
def boxCall (core : PoolCore σ ι ο) (box : σ × PoolStore) (c : ι) : ο × (σ × PoolStore) :=
  ((core.call box.1 c).1, ((core.call box.1 c).2, box.2))

/-- No call touches the storage. -/
theorem final_store (core : PoolCore σ ι ο) (box : σ × PoolStore) (calls : List ι) :
    (Mealy.final core.boxCall box calls).2 = box.2 := by
  induction calls generalizing box with
  | nil => rfl
  | cons c calls ih => exact ih _

end PoolCore

/-- The core of an object pool, over arrays with any contents. -/
def ObjPool.poolCore {V : Type*} (cfg : ObjPoolConfig w V) (freeStack : ℕ → BitVec 32)
    (usedBits : ℕ → BitVec 8) (elems : ℕ → V) :
    PoolCore (PoolSession w V) (PoolSession.Call w V) (PoolSession.Reply w) where
  init := .ok ⟨ObjPool.init cfg freeStack usedBits elems, []⟩
  call := PoolSession.step cfg
  clear s := ⟨s.pool.clear cfg, []⟩

/-- The core of a handle pool, over arrays with any contents; `deinit` leaves the elements alone. -/
def HandlePool.poolCore (cfg : PoolBoxConfig w) (generations : ℕ → BitVec 16)
    (freeStack : ℕ → BitVec 32) :
    PoolCore (HandlePool w) HandlePool.Call (HandlePool.Reply w) where
  init := HandlePool.init true generations freeStack cfg.capacity cfg.elemSize
  call := HandlePool.call
  clear := id

namespace ObjPoolBox

variable {σ ι ο : Type*} {cfg : PoolBoxConfig w} {env : Allocators w PoolArea}
  {core : PoolCore σ ι ο} {s : σ} {store : PoolStore}

/-- `free_stack_bytes` and `used_bits_bytes`. -/
def metaSizes : MetaSizes w := ⟨fun capacity => capacity * 4, ObjPool.usedBitsBytes⟩

/-- What `allocate_storage` does to `c_flags_`. -/
def slabFlags (cfg : PoolBoxConfig w) (flags : BoxFlags) : BoxFlags :=
  PoolStore.obtainedFlags cfg { flags with ownsStorage := true }

/-- `init`, on a zeroed box. -/
def init (cfg : PoolBoxConfig w) (env : Allocators w PoolArea) (core : PoolCore σ ι ο) :
    Except Status σ × PoolStore :=
  PoolStore.init metaSizes slabFlags cfg env core.init

/-- `deinit`. -/
def deinit (core : PoolCore σ ι ο) (env : Allocators w PoolArea) (box : σ × PoolStore) :
    σ × PoolStore :=
  (core.clear box.1, box.2.deinit env)

/-- **`deinit` of an object pool after any calls** frees what was obtained from the heap, once each
and nothing else, exactly in the configurations of `MetaTogether`. -/
theorem deinit_settled_iff (h : init cfg env core = (.ok s, store)) (calls : List ι) :
    (deinit core env (Mealy.final core.boxCall (s, store) calls)).2.heap.Settled ↔
      cfg.MetaTogether := by
  obtain ⟨hvalid, hstored⟩ := PoolStore.init_ok (fun _ => rfl) h
  rw [deinit, core.final_store]
  exact hstored.deinit_settled_iff hvalid

end ObjPoolBox

namespace HandlePoolBox

variable {σ ι ο : Type*} {cfg : PoolBoxConfig w} {env : Allocators w PoolArea}
  {core : PoolCore σ ι ο} {s : σ} {store : PoolStore}

/-- `generations_bytes` and `free_stack_bytes`. -/
def metaSizes : MetaSizes w := ⟨fun capacity => capacity * 2, fun capacity => capacity * 4⟩

/-- What `allocate_storage` does to `c_flags_`: a slab that is neither of an arena nor asked for by
`DYNAMIC_STORAGE` would not be owned. -/
def slabFlags (cfg : PoolBoxConfig w) (flags : BoxFlags) : BoxFlags :=
  if cfg.arena then { flags with ownsStorage := true, arenaStorage := true }
  else if cfg.flags.dynamicStorage then
    { flags with ownsStorage := true, dynamicStorage := true }
  else flags

/-- `init`, on a zeroed box. -/
def init (cfg : PoolBoxConfig w) (env : Allocators w PoolArea) (core : PoolCore σ ι ο) :
    Except Status σ × PoolStore :=
  PoolStore.init metaSizes slabFlags cfg env core.init

/-- `deinit`. -/
def deinit (env : Allocators w PoolArea) (box : σ × PoolStore) : σ × PoolStore :=
  (box.1, box.2.deinit env)

/-- **`deinit` of a handle pool after any calls** frees what was obtained from the heap, once each
and nothing else, exactly in the configurations of `MetaTogether`. -/
theorem deinit_settled_iff (h : init cfg env core = (.ok s, store)) (calls : List ι) :
    (deinit env (Mealy.final core.boxCall (s, store) calls)).2.heap.Settled ↔
      cfg.MetaTogether := by
  obtain ⟨hvalid, hstored⟩ := PoolStore.init_ok (fun hflag => by
    unfold slabFlags PoolStore.obtainedFlags
    rcases harena : cfg.arena with _ | _
    · rw [harena] at hflag
      simp [hflag.resolve_left (by decide)]
    · rfl) h
  rw [deinit, core.final_store]
  exact hstored.deinit_settled_iff hvalid

end HandlePoolBox

end Memkit
