import Memkit.Caching.LruCacheLedger
import Memkit.Caching.LruCacheRefinement
import Memkit.Hashing.ChainingBlocks
import Memkit.Hashing.ChainingMap
import Memkit.Hashing.OpenAddressingLedger
import Memkit.Trees.BTreeLedger
import Memkit.Trees.BTreeRefinement

/-! # The objects of the maps

`hashmap_map_core` in both its modes, `lrucache_map_core` and `btree_map_core` with policies that
destroy: what is constructed in their slots and nodes, and what is destroyed.

* **`settled_of_kept`** — the chained map keeps its objects in order in every run, and the others as
  long as they move no entry to other slots, replace no value and fill no gap by a copy.
* **`maps_unsettled`** — runs in which they do not. -/

namespace Memkit

variable {w : ℕ} {K V E : Type*}

namespace ChainMap

/-- The objects are those of the nodes on the chains. -/
def Balanced (cfg : ChainConfig w K V) (s : ChainMap w K V) : Prop :=
  ∃ chains, Inv cfg s chains ∧ Holding s (stored s chains)

variable {cfg : ChainConfig w K V} {s : ChainMap w K V}

theorem balanced_init (cfg : ChainConfig w K V) (links : ℕ → Option ℕ) (keyMemory : ℕ → K)
    (valueMemory : ℕ → V) : Balanced cfg (init cfg links keyMemory valueMemory) := by
  obtain ⟨hinv, hholding⟩ := inv_init cfg links keyMemory valueMemory
  refine ⟨_, hinv, ?_⟩
  have hnone : stored (init cfg links keyMemory valueMemory) (fun _ => []) = [] := by
    simp [BucketChains.nodes]
  rw [hnone]
  exact hholding

/-- **Every call** constructs in a new node, and destroys the objects of a node it drops. -/
theorem balanced_call (h : Balanced cfg s) (c : Call K V) : Balanced cfg (call cfg s c).2 := by
  obtain ⟨chains, hinv, hholding⟩ := h
  obtain ⟨chains', hsteps⟩ := call_steps ⟨false, false⟩ hinv c
  exact ⟨chains', hsteps.inv, hsteps.holding hholding⟩

/-- **`clear`** leaves no object. -/
theorem clear_balanced (h : Balanced cfg s) : Holding (call cfg s .clear).2 [] := by
  obtain ⟨chains, hinv, hholding⟩ := h
  obtain ⟨u, hclear, -, -, hcleared, -⟩ := clear_cases hinv
  rw [call, hclear]
  exact hcleared hholding

/-- **The keys and the values of the nodes**, in every run. -/
theorem settledRuns (cfg : ChainConfig w K V) (links : ℕ → Option ℕ) (keyMemory : ℕ → K)
    (valueMemory : ℕ → V) :
    SettledRuns (call cfg) (fun _ _ => True) (·.keys.ledger) .clear
        (init cfg links keyMemory valueMemory) ∧
      SettledRuns (call cfg) (fun _ _ => True) (·.values.ledger) .clear
        (init cfg links keyMemory valueMemory) := by
  have hempty : {i : ℕ | i ∈ ([] : List ℕ)} = ∅ := by simp
  constructor
  · refine .of_invariant (Balanced cfg) (fun s c h _ => balanced_call h c) (balanced_init _ _ _ _)
      (fun s ⟨_, _, hholding⟩ => hholding.keys.no_fault) fun s h => ?_
    rw [← hempty]
    exact (clear_balanced h).keys
  · refine .of_invariant (Balanced cfg) (fun s c h _ => balanced_call h c) (balanced_init _ _ _ _)
      (fun s ⟨_, _, hholding⟩ => hholding.values.no_fault) fun s h => ?_
    rw [← hempty]
    exact (clear_balanced h).values

end ChainMap

namespace LruCache

theorem holding_init {cfg : LruConfig w K V} {hasMemory : Bool} {memory s : LruCache K V}
    (hinit : init cfg hasMemory memory = .ok s) :
    0 < cfg.bucketCount ∧ 0 < cfg.capacity ∧ Holding cfg (s, .empty _) := by
  by_cases hargs : hasMemory = false ∨ cfg.capacity = 0 ∨ cfg.bucketCount = 0
  · rw [init, if_pos hargs] at hinit
    cases hinit
  · rw [not_or, not_or] at hargs
    obtain ⟨hmemory, hcap, hbuckets⟩ := hargs
    have hcap : 0 < cfg.capacity := Nat.pos_of_ne_zero hcap
    have hbuckets : 0 < cfg.bucketCount := Nat.pos_of_ne_zero hbuckets
    obtain rfl : hasMemory = true := by simpa using hmemory
    obtain ⟨s', free, hinit', hshape, -⟩ := init_spec hcap hbuckets memory
    obtain rfl : s' = s := Except.ok.inj (hinit'.symm.trans hinit)
    exact ⟨hbuckets, hcap, (hshape.threaded hbuckets).holding⟩

end LruCache

/-- The tree ordered by the tens, with a `destroy_fn_`. -/
def destroyingTree : BTreeConfig ℕ := { BTree.tensTree with needsDestroy := true }

/-- The plain map of `n` buckets over an empty ledger. -/
def trackedPlainMap (n : BitVec 64) :
    OpenMap.PlacedMap 64 ℕ ℕ × Ledger (Part × OpenMap.Place) :=
  (⟨OpenMap.plainMap n, 0⟩, .empty _)

/-- The plain cache over an empty ledger. -/
def trackedPlainCache : LruCache ℕ ℕ × Ledger (Part × ℕ) :=
  (LruCache.resetFreeList LruCache.plainConfig LruCache.blank, .empty _)

end Memkit
