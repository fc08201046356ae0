import Memkit.Boxes.BoxRelease

/-! # What a failing `init` leaves on the heap

The `init` of the LRU cache and of the two pools obtain their blocks one after the other, and give
the core its pointers last. When a later block is refused, or the core refuses, they call the same
functions as `deinit`, which read the pointers from the core: there are none yet, and nothing is
freed.

* **`LruBox.failedInit_settled_iff`**, **`PoolStore.failedInit_settled_iff`** — what is obtained until
  then stays.
* **`failed_init_frees_iff`** — the exact condition for the three boxes. -/

namespace Memkit

open Allocators

variable {w : ℕ} {K V σ ι ο : Type*}

/-! ## The pools -/

namespace PoolBoxConfig

/-- Whether the slab has a block. -/
def grantsSlab (cfg : PoolBoxConfig w) (env : Allocators w PoolArea) : Bool :=
  env.grants cfg.storage cfg.arena .storage (cfg.elemSize * cfg.capacity)

/-- Whether both arrays of metadata have a block. -/
def grantsMeta (cfg : PoolBoxConfig w) (sizes : MetaSizes w) (env : Allocators w PoolArea) : Bool :=
  env.grants cfg.firstMeta cfg.arena .firstMeta (sizes.firstMeta cfg.capacity) &&
    env.grants cfg.secondMeta cfg.arena .secondMeta (sizes.secondMeta cfg.capacity)

/-- **The condition**: there is an arena, or the slab is refused, or it is of the caller, and the
metadata are of the caller too or refused. -/
def FailsEarly (cfg : PoolBoxConfig w) (sizes : MetaSizes w) (env : Allocators w PoolArea) : Prop :=
  cfg.arena = true ∨ cfg.grantsSlab env = false ∨
    (cfg.storage = true ∧ (cfg.needsMeta = false ∨ cfg.grantsMeta sizes env = false))

instance (cfg : PoolBoxConfig w) (sizes : MetaSizes w) (env : Allocators w PoolArea) :
    Decidable (cfg.FailsEarly sizes env) :=
  inferInstanceAs (Decidable (_ ∨ _))

end PoolBoxConfig

namespace PoolStore

variable {sizes : MetaSizes w} {flagged : PoolBoxConfig w → BoxFlags → BoxFlags}
  {cfg : PoolBoxConfig w} {env : Allocators w PoolArea} {coreInit : Except Status σ} {st : Status}
  {store store' : PoolStore} {blocks : List (Block PoolArea)}

/-- The core has no pointers yet. -/
structure Unset (store : PoolStore) : Prop where
  storage : store.storage = none
  firstMeta : store.firstMeta = none
  secondMeta : store.secondMeta = none

/-- A slab that is refused leaves the heap alone. -/
theorem allocateStorage_refused (h : allocateStorage flagged cfg env store = (.error st, store')) :
    store'.heap = store.heap ∧ cfg.grantsSlab env = false := by
  unfold allocateStorage at h
  split at h
  · next hprovide =>
    cases h
    exact provide_refused hprovide
  · cases h

/-- A slab is granted, and no pointer is set. -/
theorem allocateStorage_unset {ptr : Block PoolArea} (hunset : store.Unset)
    (h : allocateStorage flagged cfg env store = (.ok ptr, store')) :
    store'.Unset ∧ cfg.grantsSlab env = true := by
  unfold allocateStorage at h
  split at h
  · cases h
  · next hprovide =>
    cases h
    exact ⟨⟨hunset.storage, hunset.firstMeta, hunset.secondMeta⟩, grants_of_provide hprovide⟩

/-- Metadata that are refused: the heap holds what it held, and no pointer is set. -/
theorem allocateMeta_refused (hunset : store.Unset)
    (h : allocateMeta sizes cfg env store = (.error st, store'))
    (hheap : store.heap.Holds {b | b ∈ blocks}) (hfirst : .obtained .firstMeta ∉ blocks) :
    store'.Unset ∧ store'.heap.Holds {b | b ∈ blocks} ∧ cfg.grantsMeta sizes env = false := by
  unfold allocateMeta at h
  unfold PoolBoxConfig.grantsMeta
  split at h
  · cases h
  split at h
  · next hprovide =>
    -- the first array
    cases h
    obtain ⟨rfl, hrefused⟩ := provide_refused hprovide
    exact ⟨⟨hunset.storage, hunset.firstMeta, hunset.secondMeta⟩, hheap, by rw [hrefused]; rfl⟩
  next hprovide =>
  split at h
  · next hprovide' =>
    -- the second array, and the first one is given back
    cases h
    obtain ⟨rfl, hheap₁, -⟩ := provide_ok hprovide hheap hfirst
    obtain ⟨rfl, hrefused⟩ := provide_refused hprovide'
    refine ⟨⟨hunset.storage, hunset.firstMeta, hunset.secondMeta⟩, ?_, by
      rw [hrefused, Bool.and_false]⟩
    show (if (!cfg.firstMeta && !cfg.arena) = true then _ else _ : Ledger (Block PoolArea)).Holds _
    rcases hgiven : cfg.firstMeta with _ | _
    · rcases harena : cfg.arena with _ | _
      · rw [hgiven, harena] at hheap₁
        exact hheap₁.destroy_head hfirst
      · rw [hgiven, harena] at hheap₁
        exact hheap₁
    · rw [hgiven] at hheap₁
      exact hheap₁
  · cases h

/-- Metadata are granted, and no pointer is set. -/
theorem allocateMeta_unset {ptrs : Block PoolArea × Block PoolArea} (hunset : store.Unset)
    (h : allocateMeta sizes cfg env store = (.ok ptrs, store')) :
    store'.Unset ∧ cfg.grantsMeta sizes env = true := by
  unfold allocateMeta at h
  unfold PoolBoxConfig.grantsMeta
  split at h
  · next hboth =>
    cases h
    exact ⟨hunset, by simp [grants, hboth]⟩
  split at h
  · cases h
  next hprovide =>
  split at h
  · cases h
  next hprovide' =>
  cases h
  exact ⟨⟨hunset.storage, hunset.firstMeta, hunset.secondMeta⟩, by
    rw [grants_of_provide hprovide, grants_of_provide hprovide', Bool.and_true]⟩

/-- Without its pointer the slab is not freed. -/
theorem Unset.releaseStorage_heap (hunset : store.Unset) :
    (store.releaseStorage env).heap = store.heap := by
  unfold releaseStorage
  split
  · rfl
  · show env.releaseOwnedBlock _ store.storage _ = _
    rw [hunset.storage]
    rfl

/-- Without their pointers the metadata are not freed. -/
theorem Unset.releaseMeta (hunset : store.Unset) :
    (store.releaseMeta env).Unset ∧ (store.releaseMeta env).heap = store.heap := by
  unfold PoolStore.releaseMeta
  split
  · exact ⟨hunset, rfl⟩
  · refine ⟨⟨hunset.storage, hunset.firstMeta, hunset.secondMeta⟩, ?_⟩
    show env.releaseOwnedBlock _ store.secondMeta (env.releaseOwnedBlock _ store.firstMeta _) = _
    rw [hunset.firstMeta, hunset.secondMeta]
    rfl

/-- **A failing `init`** has freed what it obtained exactly if it fails early. -/
theorem failedInit_settled_iff (hvalid : cfg.validateConfig sizes = .ok)
    (h : init sizes flagged cfg env coreInit = (.error st, store)) :
    store.heap.Settled ↔ cfg.FailsEarly sizes env := by
  have hzeroed : zeroed.Unset := ⟨rfl, rfl, rfl⟩
  unfold init at h
  rw [if_neg (not_not.mpr hvalid)] at h
  unfold PoolBoxConfig.FailsEarly
  split at h
  · next store₁ hstorage =>
    -- the slab is refused
    cases h
    obtain ⟨hheap, hrefused⟩ := allocateStorage_refused hstorage
    refine iff_of_true ?_ (.inr (.inl hrefused))
    show store₁.heap.Settled
    rw [hheap]
    exact Ledger.holds_empty.settled
  next hstorage =>
  obtain ⟨rfl, -, hheap₁, -⟩ := allocateStorage_ok hstorage Ledger.holds_nil List.not_mem_nil
  obtain ⟨hunset₁, hslab⟩ := allocateStorage_unset hzeroed hstorage
  split at h
  · next hmeta =>
    -- the metadata are refused, and the slab stays
    cases h
    obtain ⟨hunset₂, hheap₂, hrefused⟩ :=
      allocateMeta_refused hunset₁ hmeta hheap₁ (notMem_ofHeap (by decide))
    show (releaseStorage env _).heap.Settled ↔ _
    rw [hunset₂.releaseStorage_heap]
    refine hheap₂.settled_iff_eq_nil.trans ?_
    rw [hslab, hrefused, List.append_nil]
    simp only [ofHeap]
    rcases cfg.storage with _ | _ <;> rcases cfg.arena with _ | _ <;> simp
  next hmeta =>
  obtain ⟨rfl, rfl, -, hheap₂, -, -⟩ :=
    allocateMeta_ok hmeta hheap₁ (notMem_ofHeap (by decide)) (notMem_ofHeap (by decide))
  obtain ⟨hunset₂, hmeta'⟩ := allocateMeta_unset hunset₁ hmeta
  split at h
  · -- the core refuses, and everything stays
    cases h
    have hreleased : (PoolStore.releaseMeta env _).Unset ∧ _ := hunset₂.releaseMeta
    obtain ⟨hunset₃, hheap₃⟩ := hreleased
    show (releaseStorage env _).heap.Settled ↔ _
    rw [hunset₃.releaseStorage_heap, hheap₃]
    refine hheap₂.settled_iff_eq_nil.trans ?_
    rw [hslab, hmeta', List.append_nil]
    unfold PoolBoxConfig.needsMeta
    simp only [ofHeap]
    rcases cfg.storage with _ | _ <;> rcases cfg.arena with _ | _ <;>
      rcases cfg.firstMeta with _ | _ <;> rcases cfg.secondMeta with _ | _ <;> simp
  · cases h

end PoolStore

/-! ## The LRU cache -/

namespace LruBoxConfig

/-- Whether the entry pool has a block. -/
def grantsPool (cfg : LruBoxConfig w K V) (env : Allocators w LruArea) : Bool :=
  env.grants cfg.entryPool cfg.arena .entryPool cfg.entryPoolSize

/-- Whether the bucket array has a block. -/
def grantsBuckets (cfg : LruBoxConfig w K V) (env : Allocators w LruArea) : Bool :=
  env.grants cfg.buckets cfg.arena .buckets (cfg.bucketsSize cfg.usedBucketCount)

/-- **The condition**: there is an arena, or the entry pool is refused, or it is of the caller, and
the bucket array is of the caller too or refused. -/
def FailsEarly (cfg : LruBoxConfig w K V) (env : Allocators w LruArea) : Prop :=
  cfg.arena = true ∨ cfg.grantsPool env = false ∨
    (cfg.entryPool = true ∧ (cfg.buckets = true ∨ cfg.grantsBuckets env = false))

instance (cfg : LruBoxConfig w K V) (env : Allocators w LruArea) :
    Decidable (cfg.FailsEarly env) :=
  inferInstanceAs (Decidable (_ ∨ _))

end LruBoxConfig

namespace LruBox

variable {cfg : LruBoxConfig w K V} {env : Allocators w LruArea} {memory : LruCache K V}
  {st : Status} {box box' : LruBox K V}

/-- The core has no pointers yet. -/
structure Unset (box : LruBox K V) : Prop where
  entryPool : box.entryPool = none
  buckets : box.buckets = none

/-- An entry pool that is refused leaves the heap alone. -/
theorem allocateEntryPool_refused (h : allocateEntryPool cfg env box = (.error st, box')) :
    box'.heap = box.heap ∧ cfg.grantsPool env = false := by
  unfold allocateEntryPool at h
  split at h
  · next hprovide =>
    cases h
    exact provide_refused hprovide
  · cases h

/-- An entry pool is granted, and no pointer is set. -/
theorem allocateEntryPool_unset {ptr : Block LruArea} (hunset : box.Unset)
    (h : allocateEntryPool cfg env box = (.ok ptr, box')) :
    box'.Unset ∧ cfg.grantsPool env = true := by
  unfold allocateEntryPool at h
  split at h
  · cases h
  · next hprovide =>
    cases h
    exact ⟨⟨hunset.entryPool, hunset.buckets⟩, grants_of_provide hprovide⟩

/-- A bucket array that is refused leaves the heap alone, and no pointer is set. -/
theorem allocateBuckets_refused (hunset : box.Unset)
    (h : allocateBuckets cfg env box = (.error st, box')) :
    box'.Unset ∧ box'.heap = box.heap ∧ cfg.grantsBuckets env = false := by
  unfold allocateBuckets at h
  split at h
  · next hprovide =>
    cases h
    exact ⟨⟨hunset.entryPool, hunset.buckets⟩, provide_refused hprovide⟩
  · cases h

/-- A bucket array is granted, and no pointer is set. -/
theorem allocateBuckets_unset {ptr : Block LruArea} (hunset : box.Unset)
    (h : allocateBuckets cfg env box = (.ok ptr, box')) :
    box'.Unset ∧ cfg.grantsBuckets env = true := by
  unfold allocateBuckets at h
  split at h
  · cases h
  · next hprovide =>
    cases h
    exact ⟨⟨hunset.entryPool, hunset.buckets⟩, grants_of_provide hprovide⟩

/-- Without their pointers no area is freed. -/
theorem Unset.releaseStorage_heap (hunset : box.Unset) : (box.releaseStorage env).heap = box.heap := by
  unfold releaseStorage
  rw [hunset.entryPool, hunset.buckets]
  split
  · rfl
  · dsimp only
    split <;> rfl

/-- **A failing `init`** has freed what it obtained exactly if it fails early. -/
theorem failedInit_settled_iff (hvalid : cfg.validateConfig = .ok)
    (h : init cfg env memory = (st, box)) (hst : st ≠ .ok) :
    box.heap.Settled ↔ cfg.FailsEarly env := by
  have hzeroed : (zeroed memory).Unset := ⟨rfl, rfl⟩
  unfold init at h
  dsimp only at h
  rw [if_neg (not_not.mpr hvalid)] at h
  unfold LruBoxConfig.FailsEarly
  split at h
  · next box₁ hpool =>
    -- the entry pool is refused
    cases h
    obtain ⟨hheap, hrefused⟩ := allocateEntryPool_refused hpool
    refine iff_of_true ?_ (.inr (.inl hrefused))
    show box₁.heap.Settled
    rw [hheap]
    exact Ledger.holds_empty.settled
  next hpool =>
  obtain ⟨rfl, -, -, hheap₁, -⟩ :=
    allocateEntryPool_ok hpool Ledger.holds_nil List.not_mem_nil
  obtain ⟨hunset₁, hgranted⟩ := allocateEntryPool_unset hzeroed hpool
  split at h
  · next hbuckets =>
    -- the bucket array is refused, and the entry pool stays
    cases h
    obtain ⟨hunset₂, hheap, hrefused⟩ := allocateBuckets_refused hunset₁ hbuckets
    show (releaseStorage env _).heap.Settled ↔ _
    rw [hunset₂.releaseStorage_heap, hheap]
    refine hheap₁.settled_iff_eq_nil.trans ?_
    rw [hgranted, hrefused, List.append_nil]
    simp only [ofHeap]
    rcases cfg.entryPool with _ | _ <;> rcases cfg.arena with _ | _ <;> simp
  next hbuckets =>
  obtain ⟨rfl, -, -, hheap₂, -⟩ := allocateBuckets_ok hbuckets hheap₁ (by
    rw [ofHeap]
    split <;> simp)
  obtain ⟨hunset₂, hgranted'⟩ := allocateBuckets_unset hunset₁ hbuckets
  split at h
  · -- the core refuses, and everything stays
    cases h
    show (releaseStorage env _).heap.Settled ↔ _
    rw [Unset.releaseStorage_heap]
    · refine hheap₂.settled_iff_eq_nil.trans ?_
      rw [hgranted, hgranted', List.append_nil]
      simp only [ofHeap]
      rcases cfg.entryPool with _ | _ <;> rcases cfg.arena with _ | _ <;>
        rcases cfg.buckets with _ | _ <;> simp
    · exact ⟨hunset₂.entryPool, hunset₂.buckets⟩
  · cases h
    exact absurd rfl hst

end LruBox

/-! ## The three boxes -/

/-- **What a failing `init` frees**: over a valid configuration it has freed every block obtained from
the heap once and no other block, exactly if it fails before the heap was asked for a block that it
granted (`FailsEarly`). -/
theorem failed_init_frees_iff :
    (∀ (cfg : LruBoxConfig w K V) (env : Allocators w LruArea) (memory : LruCache K V)
      (st : Status) (box : LruBox K V), cfg.validateConfig = .ok →
      LruBox.init cfg env memory = (st, box) → st ≠ .ok →
        (box.heap.Settled ↔ cfg.FailsEarly env)) ∧
    (∀ (cfg : PoolBoxConfig w) (env : Allocators w PoolArea) (core : PoolCore σ ι ο) (st : Status)
      (store : PoolStore), cfg.validateConfig ObjPoolBox.metaSizes = .ok →
      ObjPoolBox.init cfg env core = (.error st, store) →
        (store.heap.Settled ↔ cfg.FailsEarly ObjPoolBox.metaSizes env)) ∧
    (∀ (cfg : PoolBoxConfig w) (env : Allocators w PoolArea) (core : PoolCore σ ι ο) (st : Status)
      (store : PoolStore), cfg.validateConfig HandlePoolBox.metaSizes = .ok →
      HandlePoolBox.init cfg env core = (.error st, store) →
        (store.heap.Settled ↔ cfg.FailsEarly HandlePoolBox.metaSizes env)) := by
  refine ⟨?_, ?_, ?_⟩
  · intro cfg env memory st box hvalid hinit hst
    exact LruBox.failedInit_settled_iff hvalid hinit hst
  · intro cfg env core st store hvalid hinit
    exact PoolStore.failedInit_settled_iff hvalid hinit
  · intro cfg env core st store hvalid hinit
    exact PoolStore.failedInit_settled_iff hvalid hinit

/-- A pool with all areas of the heap. -/
def dynamicPoolBox (capacity : BitVec 64) : PoolBoxConfig 64 where
  elemSize := 24
  capacity := capacity
  storage := false
  storageBytes := 0
  firstMeta := false
  firstMetaBytes := 0
  secondMeta := false
  secondMetaBytes := 0
  arena := false
  flags := ⟨false, false, true, false⟩

/-- A heap that grants the block of one area only. -/
def oneBlock {α : Type*} [DecidableEq α] (area : α) : Allocators 64 α :=
  ⟨true, fun _ _ => .oom, fun asked _ => decide (asked = area)⟩

/-- The core of a handle pool of that many slots. -/
def plainHandles (capacity : BitVec 64) :
    PoolCore (HandlePool 64) HandlePool.Call (HandlePool.Reply 64) :=
  HandlePool.poolCore (dynamicPoolBox capacity) (fun _ => 0) fun _ => 0

/-- An object pool of four slots. -/
def fourObjects : ObjPoolConfig 64 ℕ where
  policy := .bytewise ℕ
  needsDestroy := false
  elemSize := 24
  capacity := 4
  storage := 4096
  word_ge := by decide
  elemSize_pos := by decide
  storage_ne := by decide
  capacity_pos := by decide
  capacity_lt := by decide
  storage_fits := by decide
  stack_fits := by decide

/-- Its core. -/
def plainObjects : PoolCore (PoolSession 64 ℕ) (PoolSession.Call 64 ℕ) (PoolSession.Reply 64) :=
  ObjPool.poolCore fourObjects (fun _ => 0) (fun _ => 0) fun _ => 0

/-- The condition for an LRU cache and two pools, when the heap has no block for the first area but
one for the second. -/
theorem failed_init_frees_iff_second :
    ((LruBox.init (plainLruBox false) (oneBlock .buckets) LruCache.blank).1 = .oom ∧
      ((LruBox.init (plainLruBox false) (oneBlock .buckets) LruCache.blank).2.heap.Settled ↔
        (plainLruBox false).FailsEarly (oneBlock .buckets))) ∧
    (∃ store, ObjPoolBox.init (dynamicPoolBox 4) (oneBlock .firstMeta) plainObjects =
        (.error .oom, store) ∧
      (store.heap.Settled ↔
        (dynamicPoolBox 4).FailsEarly ObjPoolBox.metaSizes (oneBlock .firstMeta))) ∧
    ∃ store, HandlePoolBox.init (dynamicPoolBox 4) (oneBlock .firstMeta) (plainHandles 4) =
        (.error .oom, store) ∧
      (store.heap.Settled ↔
        (dynamicPoolBox 4).FailsEarly HandlePoolBox.metaSizes (oneBlock .firstMeta)) := by
  refine ⟨⟨by decide +kernel, ?_⟩, ⟨_, rfl, ?_⟩, ⟨_, rfl, ?_⟩⟩
  · exact (failed_init_frees_iff (σ := Unit) (ι := Unit) (ο := Unit)).1 _ _ LruCache.blank .oom _
      (by decide +kernel) (Prod.ext (by decide +kernel) rfl) (by decide)
  · exact (failed_init_frees_iff (K := ℕ) (V := ℕ)).2.1 _ _ plainObjects .oom _ (by decide +kernel)
      rfl
  · exact (failed_init_frees_iff (K := ℕ) (V := ℕ)).2.2 _ _ (plainHandles 4) .oom _
      (by decide +kernel) rfl

/-- **A failing `init` leaks**: an LRU cache whose bucket array is refused keeps its entry pool, an
object pool whose metadata are refused keeps its slab, and a handle pool with more slots than its
core takes keeps all three blocks. -/
theorem failed_init_leaks :
    ((LruBox.init (plainLruBox false) (oneBlock .entryPool) LruCache.blank).1 = .oom ∧
      ¬ (LruBox.init (plainLruBox false) (oneBlock .entryPool) LruCache.blank).2.heap.Settled) ∧
    (∃ store, ObjPoolBox.init (dynamicPoolBox 4) (oneBlock .storage) plainObjects =
        (.error .oom, store) ∧ ¬ store.heap.Settled) ∧
    ∃ store, HandlePoolBox.init (dynamicPoolBox 65537) (plainHeap PoolArea) (plainHandles 65537) =
      (.error .invalid, store) ∧ ¬ store.heap.Settled := by
  refine ⟨⟨by decide +kernel, by decide +kernel⟩, ⟨_, rfl, by decide +kernel⟩, ⟨_, rfl, ?_⟩⟩
  decide +kernel

end Memkit
