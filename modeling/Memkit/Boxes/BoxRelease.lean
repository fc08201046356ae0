import Memkit.Boxes.HashMapBox
import Memkit.Boxes.LruCacheBox
import Memkit.Boxes.PoolBoxes

/-! # Boxes release what they obtain

When the four boxes of `c_api` with several areas of storage free exactly what they obtained. One
flag says for all areas of a box that their blocks are of the heap, so it goes wrong where the areas
have different origins.

* **`deinit_releases_iff`** — the exact condition for each box.
* **`deinit_frees_given_block`** — one flag that speaks for another area. -/

namespace Memkit

variable {w : ℕ} {K V σ ι ο : Type*}

/-- **What the boxes release**: after a successful `init` and any calls, `deinit` of an LRU cache, of
the two pools and of a hash map of either strategy has freed every block obtained from the heap once
and no other block, exactly if

* the LRU cache is not given its entry pool alone, without an arena,
* the metadata of the pools are given or obtained together (`MetaTogether`),
* growth of the hash map does not replace the array of the caller by one of the heap. -/
theorem deinit_releases_iff :
    (∀ (cfg : LruBoxConfig w K V) (env : Allocators w LruArea) (memory : LruCache K V)
      (box : LruBox K V), LruBox.init cfg env memory = (.ok, box) →
      ∀ calls : List (LruCache.Call K V),
        (∀ box', LruBox.deinit cfg env (Mealy.final (LruBox.call cfg) box calls) = some box' →
          (box'.heap.Settled ↔ ¬ cfg.PoolGivenAlone)) ∧
        (cfg.hashEqPolicy.Lawful → cfg.keyPolicy.Faithful → cfg.valuePolicy.Faithful →
          ∃ box', LruBox.deinit cfg env (Mealy.final (LruBox.call cfg) box calls) = some box')) ∧
    (∀ (cfg : PoolBoxConfig w) (env : Allocators w PoolArea) (core : PoolCore σ ι ο) (s : σ)
      (store : PoolStore), ObjPoolBox.init cfg env core = (.ok s, store) → ∀ calls : List ι,
        ((ObjPoolBox.deinit core env (Mealy.final core.boxCall (s, store) calls)).2.heap.Settled ↔
          cfg.MetaTogether)) ∧
    (∀ (cfg : PoolBoxConfig w) (env : Allocators w PoolArea) (core : PoolCore σ ι ο) (s : σ)
      (store : PoolStore), HandlePoolBox.init cfg env core = (.ok s, store) → ∀ calls : List ι,
        ((HandlePoolBox.deinit env (Mealy.final core.boxCall (s, store) calls)).2.heap.Settled ↔
          cfg.MetaTogether)) ∧
    (∀ (cfg : HashMapBoxConfig w K V) (env : MapAllocators w) (hchaining : cfg.strategy = .chaining)
      (links : ℕ → Option ℕ) (keyMemory : ℕ → K) (valueMemory : ℕ → V)
      (box : HashMapBox (ChainMap w K V)) (heap : Ledger (Block MapArea)),
      HashMapBox.initChaining cfg env hchaining links keyMemory valueMemory = (.ok box, heap) →
      ∀ calls : List (ChainMap.Call K V), ∃ heap',
        HashMapBox.deinit (HashMapBox.chainCore cfg env hchaining) (cfg.rawMemory env)
            (HashMapBox.run (HashMapBox.chainCore cfg env hchaining) (cfg.rawMemory env)
              (box, heap) calls) = some heap' ∧
          (heap'.Settled ↔ ¬ HashMapBox.ReplacesCallerArray cfg
            (HashMapBox.chainCore cfg env hchaining) box.core calls)) ∧
    (∀ (cfg : HashMapBoxConfig w K V) (env : MapAllocators w), cfg.strategy = .openAddressing →
      ∀ (memory : ℕ → Slot K V) (box : HashMapBox (OpenMap w K V)) (heap : Ledger (Block MapArea)),
      HashMapBox.initOpen cfg env memory = (.ok box, heap) →
      ∀ calls : List (OpenMap.Call K V), ∃ heap',
        HashMapBox.deinit (HashMapBox.openCore cfg env) (cfg.rawMemory env)
            (HashMapBox.run (HashMapBox.openCore cfg env) (cfg.rawMemory env) (box, heap) calls) =
          some heap' ∧
          (heap'.Settled ↔ ¬ HashMapBox.ReplacesCallerArray cfg (HashMapBox.openCore cfg env)
            box.core calls)) := by
  refine ⟨?_, ?_, ?_, ?_, ?_⟩
  · intro cfg env memory box hinit calls
    refine ⟨fun box' hdeinit => LruBox.deinit_settled_iff hinit calls hdeinit, ?_⟩
    intro hlaw hkey hval
    exact LruBox.deinit_returns hlaw hkey hval hinit calls
  · intro cfg env core s store hinit calls
    exact ObjPoolBox.deinit_settled_iff hinit calls
  · intro cfg env core s store hinit calls
    exact HandlePoolBox.deinit_settled_iff hinit calls
  · intro cfg env hchaining links keyMemory valueMemory box heap hinit calls
    exact HashMapBox.chaining_deinit hinit calls
  · intro cfg env _ memory box heap hinit calls
    exact HashMapBox.open_deinit hinit calls

/-- An LRU cache with an entry pool of the caller if `pool`, a bucket array of the heap, and
`DYNAMIC_STORAGE`. -/
def plainLruBox (pool : Bool) : LruBoxConfig 64 ℕ ℕ where
  keySize := 8
  valueSize := 8
  capacity := 2
  bucketCount := 4
  entryPool := pool
  entryPoolBytes := if pool then 96 else 0
  buckets := false
  bucketsBytes := 0
  arena := false
  flags := ⟨false, false, true, false⟩
  keyPolicy := .bytewise ℕ
  valuePolicy := .bytewise ℕ
  hashEqPolicy := .ofDecEq fun n => BitVec.ofNat 64 n
  headerSize := 32
  pointerSize := 8

/-- A heap that grants every request, and no arena. -/
def plainHeap (α : Type*) : Allocators 64 α := ⟨true, fun _ _ => .oom, fun _ _ => true⟩

/-- A map of chains with one bucket, of the caller if `storage`, that may grow. -/
def plainMapBox (storage : Bool) : HashMapBoxConfig 64 ℕ ℕ where
  keySize := 8
  valueSize := 8
  bucketCount := 1
  strategy := .chaining
  storage := storage
  storageBytes := if storage then 8 else 0
  arena := false
  flags := ⟨false, false, !storage, false⟩
  growable := true
  keyPolicy := .bytewise ℕ
  valuePolicy := .bytewise ℕ
  hashPolicy := .ofDecEq (BitVec.ofNat 64)
  pointerSize := 8
  maxAlign := 16
  zeroKey := 0
  zeroValue := 0
  wide := by decide
  pointerSize_pos := by decide
  buckets_real _ := by decide

/-- A heap that grants every request of less than a page. -/
def smallHeap : MapAllocators 64 where
  allowHeap := true
  arenaAlloc _ _ := .oom
  malloc _ bytes := decide (bytes < 4096)
  arena_real := by
    intro area bytes h
    cases h
  malloc_real := by
    intro area bytes h
    have hlt : bytes.toNat < 4096 := of_decide_eq_true h
    exact hlt.trans (by decide)

/-- `init` of the LRU cache. -/
def plainLru (pool : Bool) : Status × LruBox ℕ ℕ :=
  LruBox.init (plainLruBox pool) (plainHeap LruArea) LruCache.blank

/-- `init` of the map. -/
def plainMap (storage : Bool) :
    Except Status (HashMapBox (ChainMap 64 ℕ ℕ)) × Ledger (Block MapArea) :=
  HashMapBox.initChaining (plainMapBox storage) smallHeap rfl (fun _ => none) (fun _ => 0) fun _ => 0

/-- The core of the map. -/
def plainMapCore (storage : Bool) :=
  HashMapBox.chainCore (plainMapBox storage) smallHeap rfl

/-- The condition for an LRU cache and for a map, both with all blocks of the heap. -/
theorem deinit_releases_iff_plain :
    (∃ box box', plainLru false = (.ok, box) ∧
      LruBox.deinit (plainLruBox false) (plainHeap LruArea)
        (Mealy.final (LruBox.call (plainLruBox false)) box [.put (some 1) (some 10)]) = some box' ∧
      (box'.heap.Settled ↔ ¬ (plainLruBox false).PoolGivenAlone)) ∧
    ∃ box heap heap', plainMap false = (.ok box, heap) ∧
      HashMapBox.deinit (plainMapCore false) ((plainMapBox false).rawMemory smallHeap)
        (HashMapBox.run (plainMapCore false) ((plainMapBox false).rawMemory smallHeap) (box, heap)
          [.put (some 1) (some 10), .put (some 2) (some 20)]) = some heap' ∧
      (heap'.Settled ↔ ¬ HashMapBox.ReplacesCallerArray (plainMapBox false) (plainMapCore false)
        box.core [.put (some 1) (some 10), .put (some 2) (some 20)]) := by
  constructor
  · have hinit : plainLru false = (.ok, (plainLru false).2) := Prod.ext (by decide +kernel) rfl
    have hreleases := (deinit_releases_iff (K := ℕ) (V := ℕ) (σ := Unit) (ι := Unit) (ο := Unit)).1
      _ _ _ _ hinit [.put (some 1) (some 10)]
    obtain ⟨box', hdeinit⟩ := hreleases.2 (HashPolicy.lawful_ofDecEq _)
      (ElementPolicy.nonFailing_bytewise ℕ).faithful (ElementPolicy.nonFailing_bytewise ℕ).faithful
    exact ⟨_, box', hinit, hdeinit, hreleases.1 box' hdeinit⟩
  · rcases hinit : plainMap false with ⟨st | box, heap⟩
    · have hok : (plainMap false).1.toOption.isSome = true := by decide +kernel
      rw [hinit] at hok
      cases hok
    · obtain ⟨heap', hdeinit, hiff⟩ :=
        (deinit_releases_iff (σ := Unit) (ι := Unit) (ο := Unit)).2.2.2.1 _ _ _ _ _ _ _ _ hinit
          [.put (some 1) (some 10), .put (some 2) (some 20)]
      exact ⟨box, heap, heap', rfl, hdeinit, hiff⟩

/-- **One flag speaks for another area**: the entry pool of the caller is freed with the bucket array
of the heap. And what growth obtained in place of the array of the caller is never freed. -/
theorem deinit_frees_given_block :
    (∃ box', (plainLru true).1 = .ok ∧
      LruBox.deinit (plainLruBox true) (plainHeap LruArea)
        (Mealy.final (LruBox.call (plainLruBox true)) (plainLru true).2 []) = some box' ∧
      ¬ box'.heap.Settled) ∧
    ∃ box heap', (plainMap true).1 = .ok box ∧
      HashMapBox.deinit (plainMapCore true) ((plainMapBox true).rawMemory smallHeap)
        (HashMapBox.run (plainMapCore true) ((plainMapBox true).rawMemory smallHeap)
          (box, (plainMap true).2) [.put (some 1) (some 10)]) = some heap' ∧
      ¬ heap'.Settled := by
  constructor
  · have hrun : (LruBox.deinit (plainLruBox true) (plainHeap LruArea)
        (Mealy.final (LruBox.call (plainLruBox true)) (plainLru true).2 [])).map
          (fun box' => decide box'.heap.Settled) = some false := by decide +kernel
    obtain ⟨box', hdeinit, hsettled⟩ := Option.map_eq_some_iff.mp hrun
    exact ⟨box', by decide +kernel, hdeinit, of_decide_eq_false hsettled⟩
  · have hrun : ((plainMap true).1.toOption.bind fun box =>
        (HashMapBox.deinit (plainMapCore true) ((plainMapBox true).rawMemory smallHeap)
          (HashMapBox.run (plainMapCore true) ((plainMapBox true).rawMemory smallHeap)
            (box, (plainMap true).2) [.put (some 1) (some 10)])).map
          fun heap' => decide heap'.Settled) = some false := by decide +kernel
    obtain ⟨box, hinit, hbox⟩ := Option.bind_eq_some_iff.mp hrun
    obtain ⟨heap', hdeinit, hsettled⟩ := Option.map_eq_some_iff.mp hbox
    refine ⟨box, heap', ?_, hdeinit, of_decide_eq_false hsettled⟩
    rcases hok : (plainMap true).1 with st | box'
    · rw [hok] at hinit
      cases hinit
    · rw [hok] at hinit
      exact congrArg Except.ok (Option.some.inj hinit)

end Memkit
