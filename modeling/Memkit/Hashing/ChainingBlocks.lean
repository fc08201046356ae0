import Memkit.Hashing.ChainingShape
import Memkit.Hashing.MapBlocks

/-! # The blocks of memory of the chaining hash map

What the calls of the core obtain and free, at the places of `alloc_raw` and `free_raw`: a node for
each new entry, and an array of buckets for each growth. -/

namespace Memkit

open BucketChains LinkedChain RawMemory
open Ledger (Event)

namespace ChainMap

variable {w : ℕ} {K V : Type*}

/-! ## Events -/

/-- The events of `alloc_chain_node`: a failed copy frees the node. -/
def allocChainNodeBlocks (mem : RawMemory) (cfg : ChainConfig w K V) (s : ChainMap w K V) (key : K)
    (value : V) : List (Event (Block MapArea)) :=
  if cfg.allocRaw s.allocs cfg.nodeBytes ≠ .ok then []
  else
    mem.granted s.allocs ++
      match (allocChainNode cfg s key value).1 with
      | .ok _ => []
      | .error _ => mem.freed (node s.allocs)

/-- The events of `chain_put`. -/
def chainPutBlocks (mem : RawMemory) (cfg : ChainConfig w K V) (s : ChainMap w K V) (key : K)
    (value : V) : List (Event (Block MapArea)) :=
  match chainFind cfg s (bucketIndex cfg s.bucketCount key) key with
  | some (none, _) => allocChainNodeBlocks mem cfg s key value
  | _ => []

/-- The events of `chain_remove`. -/
def chainRemoveBlocks (mem : RawMemory) (cfg : ChainConfig w K V) (s : ChainMap w K V) (key : K) :
    List (Event (Block MapArea)) :=
  match chainFind cfg s (bucketIndex cfg s.bucketCount key) key with
  | some (some found, _) => mem.freed (node found)
  | _ => []

/-- The nodes that the loop of `chain_clear` over one chain frees. -/
def clearChainNodes (cfg : ChainConfig w K V) : ℕ → ChainMap w K V → Option ℕ → List ℕ
  | _, _, none => []
  | 0, _, some _ => []
  | rounds + 1, s, some node =>
    node :: clearChainNodes cfg rounds (destroyChainNode cfg s node) (s.next node)

/-- The nodes that the loop of `chain_clear` over the remaining buckets frees. -/
def clearBucketsNodes (cfg : ChainConfig w K V) : List ℕ → ChainMap w K V → List ℕ
  | [], _ => []
  | i :: is, s =>
    clearChainNodes cfg s.rounds s (s.buckets i) ++
      match clearChain cfg s.rounds s (s.buckets i) with
      | none => []
      | some s => clearBucketsNodes cfg is { s with buckets := Function.update s.buckets i none }

/-- The nodes that `clear` frees. -/
def clearNodes (cfg : ChainConfig w K V) (s : ChainMap w K V) : List ℕ :=
  if s.bucketCount = 0 then [] else clearBucketsNodes cfg (List.range s.bucketCount.toNat) s

/-- The events of `clear`. -/
def clearBlocks (mem : RawMemory) (cfg : ChainConfig w K V) (s : ChainMap w K V) :
    List (Event (Block MapArea)) :=
  (clearNodes cfg s).flatMap fun n => mem.freed (node n)

/-- The events of `chain_rehash`: the old array is freed if it is one of the heap. -/
def chainRehashBlocks (mem : RawMemory) (cfg : ChainConfig w K V) (array : MapArray)
    (s : ChainMap w K V) (newBucketCount : BitVec w) : List (Event (Block MapArea)) :=
  if cfg.allocRaw s.allocs (newBucketCount * cfg.pointerSize) ≠ .ok then []
  else mem.granted s.allocs ++ array.release mem

/-- The events of `maybe_grow`. -/
def maybeGrowBlocks (mem : RawMemory) (cfg : ChainConfig w K V) (array : MapArray)
    (s : ChainMap w K V) : List (Event (Block MapArea)) :=
  let newCount := growBucketCount s.bucketCount
  if newCount = s.bucketCount then [] else chainRehashBlocks mem cfg array s newCount

/-- The events of `put`. -/
def putBlocks (mem : RawMemory) (cfg : ChainConfig w K V) (array : MapArray) (s : ChainMap w K V)
    (key : Option K) (value : Option V) : List (Event (Block MapArea)) :=
  match key, value with
  | some key, some value =>
    if s.bucketCount = 0 then []
    else if shouldGrow cfg.growable s.bucketCount (BitVec.ofNat w s.size) then
      maybeGrowBlocks mem cfg array s ++
        match maybeGrow cfg s with
        | some (.ok, s) => chainPutBlocks mem cfg s key value
        | _ => []
    else chainPutBlocks mem cfg s key value
  | _, _ => []

/-- The events of a call. -/
def callBlocks (mem : RawMemory) (cfg : ChainConfig w K V) (array : MapArray) (s : ChainMap w K V) :
    Call K V → List (Event (Block MapArea))
  | .put key value => putBlocks mem cfg array s key value
  | .remove (some key) => chainRemoveBlocks mem cfg s key
  | .clear => clearBlocks mem cfg s
  | _ => []

/-- A put that grows: the load limit is reached, the count can be doubled and there is memory. -/
def grows (cfg : ChainConfig w K V) (s : ChainMap w K V) : Call K V → Bool
  | .put (some _) (some _) =>
    decide (s.bucketCount ≠ 0) &&
      shouldGrow cfg.growable s.bucketCount (BitVec.ofNat w s.size) &&
      decide (growBucketCount s.bucketCount ≠ s.bucketCount) &&
      decide (cfg.allocRaw s.allocs (growBucketCount s.bucketCount * cfg.pointerSize) = .ok)
  | _ => false

variable {mem : RawMemory} {cfg : ChainConfig w K V} {s u : ChainMap w K V}
  {chains chains' : ℕ → List ℕ} {bucket : ℕ} {heap : Ledger (Block MapArea)} {array : MapArray}

/-! ## One step -/

/-- What a step from `s` to `u` does to the objects and to the blocks, by these events. -/
structure Steps (mem : RawMemory) (cfg : ChainConfig w K V) (s u : ChainMap w K V)
    (chains chains' : ℕ → List ℕ) (events : MapArray → List (Event (Block MapArea)))
    (replaced : Bool) : Prop where
  inv : Inv cfg u chains'
  allocs : s.allocs ≤ u.allocs
  holding : Holding s (stored s chains) → Holding u (stored u chains')
  blocks : mem.usesHeap = true → ∀ (array : MapArray) (heap : Ledger (Block MapArea)),
    array.Apart s.allocs (stored s chains) →
      heap.Holds {b | b ∈ ownedBlocks (stored s chains) array} →
      (if replaced then mem.replaced s.allocs else array).Apart u.allocs (stored u chains') ∧
        (heap.replay (events array)).Holds {b | b ∈ ownedBlocks (stored u chains')
          (if replaced then mem.replaced s.allocs else array)}

/-- Nothing happens. -/
theorem Steps.refl (h : Inv cfg s chains) : Steps mem cfg s s chains chains (fun _ => []) false :=
  ⟨h, le_rfl, id, fun _ _ _ hapart hheap => ⟨hapart, hheap⟩⟩

/-- One step after another that keeps the array. -/
theorem Steps.trans {t : ChainMap w K V} {chains'' : ℕ → List ℕ}
    {events : MapArray → List (Event (Block MapArea))} {later : List (Event (Block MapArea))}
    {replaced : Bool} (h : Steps mem cfg s t chains chains' events replaced)
    (hlater : Steps mem cfg t u chains' chains'' (fun _ => later) false) :
    Steps mem cfg s u chains chains'' (fun array => events array ++ later) replaced := by
  refine ⟨hlater.inv, h.allocs.trans hlater.allocs, fun hheld => hlater.holding (h.holding hheld),
    fun huses array heap hapart hheap => ?_⟩
  obtain ⟨hapart', hheap'⟩ := h.blocks huses array heap hapart hheap
  rw [Ledger.replay_append]
  exact hlater.blocks huses _ _ hapart' hheap'

theorem allocChainNode_allocs (cfg : ChainConfig w K V) (s : ChainMap w K V) (key : K) (value : V) :
    (allocChainNode cfg s key value).2.allocs = s.allocs + 1 := by
  unfold allocChainNode
  dsimp only
  repeat' split
  all_goals rfl

theorem addNode_allocs (cfg : ChainConfig w K V) (s : ChainMap w K V) (bucket : ℕ) (key : K)
    (value : V) : (addNode cfg s bucket key value).2.allocs = s.allocs + 1 := by
  have hallocs := allocChainNode_allocs cfg s key value
  unfold addNode
  split
  · next heq =>
    rw [heq] at hallocs
    exact hallocs
  · next heq =>
    rw [heq] at hallocs
    exact hallocs

/-- A new node is obtained, and freed again if a copy fails. -/
theorem holds_allocChainNode (huses : mem.usesHeap = true) (cfg : ChainConfig w K V) (bucket : ℕ)
    (key : K) (value : V) {nodes : List ℕ} (hheap : heap.Holds {b | b ∈ ownedBlocks nodes array})
    (harray : array.block ≠ node s.allocs) (hnodes : s.allocs ∉ nodes) :
    (heap.replay (allocChainNodeBlocks mem cfg s key value)).Holds
      {b | b ∈ ownedBlocks
        (if (addNode cfg s bucket key value).1 = .ok then s.allocs :: nodes else nodes) array} := by
  have hgranted := holds_granted huses hheap harray hnodes
  have hperm := ownedBlocks_perm_cons (List.Perm.refl (s.allocs :: nodes)) array
  have hset : {b | b ∈ node s.allocs :: ownedBlocks nodes array} =
      {b | b ∈ ownedBlocks (s.allocs :: nodes) array} := (Set.ext fun _ => hperm.mem_iff).symm
  rw [hset] at hgranted
  unfold allocChainNodeBlocks
  by_cases halloc : cfg.allocRaw s.allocs cfg.nodeBytes ≠ .ok
  · have hfail : (addNode cfg s bucket key value).1 ≠ .ok := by
      simp only [addNode, allocChainNode, halloc, if_true, ne_eq, not_false_eq_true]
    rw [if_pos halloc, if_neg hfail]
    exact hheap
  rw [if_neg halloc, Ledger.replay_append]
  obtain ⟨t, -, ⟨heq, -⟩ | ⟨st, heq, hst, -⟩⟩ := allocChainNode_cases cfg s key value
  · have hok : (addNode cfg s bucket key value).1 = .ok := by
      simp only [addNode, heq]
    rw [if_pos hok, heq]
    exact hgranted
  · -- the copies failed
    have hfail : (addNode cfg s bucket key value).1 ≠ .ok := by
      simpa only [addNode, heq] using hst
    rw [if_neg hfail, heq]
    exact holds_freed huses hgranted (List.Perm.refl _) harray hnodes

/-- **`chain_put`** is a step. -/
theorem chainPut_steps (mem : RawMemory) (h : Inv cfg s chains) (key : K) (value : V) :
    ∃ st u chains', chainPut cfg s key value = some (st, u) ∧
      Steps mem cfg s u chains chains' (fun _ => chainPutBlocks mem cfg s key value) false := by
  have hb := h.bucketIndex_lt key
  rcases chainFind_cases h hb key with ⟨as, found, bs, hfound, hfind⟩ | ⟨-, prev, hfind⟩
  · -- the node keeps its block
    refine ⟨.ok, { s with values := s.values.copyAssign cfg.valuePolicy found value }, chains,
      by simp only [chainPut, hfind, Option.map_some],
      ⟨h.withCells _ _, le_rfl, fun hheld => ⟨hheld.keys, hheld.values⟩,
        fun _ array heap hapart hheap => ?_⟩⟩
    simp only [chainPutBlocks, hfind]
    exact ⟨hapart, hheap⟩
  · -- a new key asks for a node
    generalize hindex : bucketIndex cfg s.bucketCount key = bucket at hb hfind
    have hallocs := addNode_allocs cfg s bucket key value
    obtain ⟨st, u, hadd, hcases⟩ := addNode_cases h hb key value
    have hput : chainPut cfg s key value = some (st, u) := by
      simp only [chainPut, hindex, hfind, Option.map_some, hadd]
    have hblocks : chainPutBlocks mem cfg s key value = allocChainNodeBlocks mem cfg s key value := by
      simp only [chainPutBlocks, hindex, hfind]
    rw [hadd] at hallocs
    have hle : s.allocs ≤ u.allocs := by
      rw [hallocs]
      exact Nat.le_succ _
    rw [hblocks]
    rcases hcases with ⟨rfl, hadds⟩ | ⟨hst, hkeeps, -⟩
    · -- the block of the node joins those of the nodes before
      have hperm : (stored u (Function.update chains bucket (s.allocs :: chains bucket))).Perm
          (s.allocs :: stored s chains) := by
        rw [stored, hadds.count]
        exact nodes_push_perm hb chains s.allocs
      refine ⟨.ok, u, _, hput, ⟨hadds.inv, hle, hadds.holding,
        fun huses array heap hapart hheap => ⟨fun n hn => ?_, ?_⟩⟩⟩
      · obtain ⟨hlt, hnot⟩ := hapart n hn
        refine ⟨hlt.trans_le hle, fun hmem => ?_⟩
        rcases List.mem_cons.mp (hperm.mem_iff.mp hmem) with rfl | hmem
        · exact lt_irrefl _ hlt
        · exact hnot hmem
      · have hnew := holds_allocChainNode huses cfg bucket key value hheap
          (fun heq => lt_irrefl _ (hapart _ heq).1) h.notMem
        rw [hadd, if_pos rfl, ← setOf_ownedBlocks_perm hperm] at hnew
        exact hnew
    · have hsame : stored u chains = stored s chains := by
        rw [stored, hkeeps.count]
      refine ⟨st, u, chains, hput, ⟨hkeeps.inv, hle, hkeeps.holding,
        fun huses array heap hapart hheap => ?_⟩⟩
      have hnew := holds_allocChainNode huses cfg bucket key value hheap
        (fun heq => lt_irrefl _ (hapart _ heq).1) h.notMem
      rw [hadd, if_neg hst] at hnew
      rw [hsame]
      exact ⟨fun n hn => ⟨(hapart n hn).1.trans_le hle, (hapart n hn).2⟩, hnew⟩

/-- **`chain_remove`** is a step. -/
theorem chainRemove_steps (mem : RawMemory) (h : Inv cfg s chains) (key : K) :
    ∃ st u chains', chainRemove cfg s key = some (st, u) ∧
      Steps mem cfg s u chains chains' (fun _ => chainRemoveBlocks mem cfg s key) false := by
  have hb := h.bucketIndex_lt key
  rcases chainFind_cases h hb key with ⟨as, found, bs, hfound, hfind⟩ | ⟨-, prev, hfind⟩
  · generalize hindex : bucketIndex cfg s.bucketCount key = bucket at hb hfind hfound
    have hdrops := dropNode_cases h hb hfound.chain_eq
    have hallocs : (dropNode cfg s bucket found as.getLast?).allocs = s.allocs := by
      unfold dropNode
      split <;> rfl
    have hremove : chainRemove cfg s key =
        some (.ok, dropNode cfg s bucket found as.getLast?) := by
      simp only [chainRemove, hindex, hfind, Option.map_some]
    have hblocks : chainRemoveBlocks mem cfg s key = mem.freed (node found) := by
      simp only [chainRemoveBlocks, hindex, hfind]
    have hperm := nodes_unlink_perm hb hfound.chain_eq
    have hnodup := List.nodup_cons.mp (hperm.nodup_iff.mp h.chained.nodup)
    rw [hblocks]
    refine ⟨.ok, _, _, hremove, ⟨hdrops.inv, hallocs.ge, hdrops.holding,
      fun huses array heap hapart hheap => ?_⟩⟩
    rw [stored, hdrops.count, hallocs]
    refine ⟨fun n hn => ⟨(hapart n hn).1, fun hmem => (hapart n hn).2 ?_⟩,
      holds_freed huses hheap hperm (fun heq => ?_) hnodup.1⟩
    · exact hperm.mem_iff.mpr (List.mem_cons_of_mem found hmem)
    · exact (hapart found heq).2 (hperm.mem_iff.mpr List.mem_cons_self)
  · refine ⟨.notFound, s, chains, by simp only [chainRemove, hfind, Option.map_some], ?_⟩
    have hblocks : chainRemoveBlocks mem cfg s key = [] := by
      simp only [chainRemoveBlocks, hfind]
    rw [hblocks]
    exact .refl h

/-! ## Growing -/

/-- What a growth requests and what it returns. -/
theorem chainRehash_request (cfg : ChainConfig w K V) (s : ChainMap w K V) (newCount : BitVec w)
    {st : Status} (h : chainRehash cfg s newCount = some (st, u)) :
    u.allocs = s.allocs + 1 ∧
      (st = .ok ↔ cfg.allocRaw s.allocs (newCount * cfg.pointerSize) = .ok) := by
  unfold chainRehash at h
  dsimp only at h
  split at h
  · next hrefused =>
    cases h
    exact ⟨rfl, Iff.rfl⟩
  · next hgranted =>
    obtain ⟨⟨newBuckets, next⟩, -, heq⟩ := Option.map_eq_some_iff.mp h
    cases heq
    exact ⟨rfl, iff_of_true rfl (not_not.mp hgranted)⟩

/-- **`maybe_grow`** is a step. -/
theorem maybeGrow_steps (mem : RawMemory) (h : Inv cfg s chains) :
    ∃ st u chains', maybeGrow cfg s = some (st, u) ∧
      (st = .ok ↔ growBucketCount s.bucketCount ≠ s.bucketCount ∧
        cfg.allocRaw s.allocs (growBucketCount s.bucketCount * cfg.pointerSize) = .ok) ∧
      Steps mem cfg s u chains chains' (fun array => maybeGrowBlocks mem cfg array s)
        (decide (st = .ok)) := by
  have hgrows := (growBucketCount_real cfg h.pos h.real).1
  have hrehash : maybeGrow cfg s = chainRehash cfg s (growBucketCount s.bucketCount) := if_neg hgrows
  have hblocks : ∀ array, maybeGrowBlocks mem cfg array s =
      chainRehashBlocks mem cfg array s (growBucketCount s.bucketCount) := fun _ => if_neg hgrows
  rcases maybeGrow_cases h with ⟨u, chains', heq, hrelinks⟩ | ⟨st, hst, -, heq⟩
  · obtain ⟨hallocs, hgranted⟩ := chainRehash_request cfg s _ (hrehash.symm.trans heq)
    have halloc := hgranted.mp rfl
    refine ⟨.ok, u, chains', heq, iff_of_true rfl ⟨hgrows, halloc⟩, ⟨hrelinks.inv,
      hallocs ▸ Nat.le_succ _, fun hheld => ?_, fun huses array heap hapart hheap => ?_⟩⟩
    · have hmoved := hheld.perm hrelinks.stored.symm
      refine ⟨?_, ?_⟩
      · rw [hrelinks.keys]
        exact hmoved.keys
      · rw [hrelinks.values]
        exact hmoved.values
    · rw [decide_eq_true rfl, if_pos rfl, setOf_ownedBlocks_perm hrelinks.stored, hblocks,
        chainRehashBlocks, if_neg (not_not.mpr halloc)]
      refine ⟨fun n hn => ?_, holds_replaced huses hheap hapart h.notMem⟩
      obtain rfl : s.allocs = n := node_injective hn
      exact ⟨hallocs ▸ Nat.lt_succ_self _, fun hmem => h.notMem (hrelinks.stored.mem_iff.mp hmem)⟩
  · obtain ⟨hallocs, hgranted⟩ := chainRehash_request cfg s _ (hrehash.symm.trans heq)
    have hrefused : cfg.allocRaw s.allocs (growBucketCount s.bucketCount * cfg.pointerSize) ≠ .ok :=
      fun hok => hst (hgranted.mpr hok)
    refine ⟨st, _, chains, heq, iff_of_false hst fun hok => hrefused hok.2, ⟨h.requested,
      Nat.le_succ _, fun hheld => ⟨hheld.keys, hheld.values⟩,
      fun huses array heap hapart hheap => ?_⟩⟩
    rw [decide_eq_false hst, if_neg Bool.false_ne_true, hblocks, chainRehashBlocks, if_pos hrefused]
    exact ⟨fun n hn => ⟨Nat.lt_succ_of_lt (hapart n hn).1, (hapart n hn).2⟩, hheap⟩

/-- **`put`** is a step. -/
theorem put_steps (mem : RawMemory) (h : Inv cfg s chains) (key : Option K) (value : Option V) :
    ∃ st u chains', put cfg s key value = some (st, u) ∧
      Steps mem cfg s u chains chains' (fun array => putBlocks mem cfg array s key value)
        (grows cfg s (.put key value)) := by
  rcases key with _ | key
  · exact ⟨.nullPtr, s, chains, rfl, .refl h⟩
  rcases value with _ | value
  · exact ⟨.nullPtr, s, chains, rfl, .refl h⟩
  have hne : s.bucketCount ≠ 0 := by
    intro hzero
    have hpos := h.pos
    rw [hzero] at hpos
    simp at hpos
  by_cases hgrow : shouldGrow cfg.growable s.bucketCount (BitVec.ofNat w s.size) = true
  · obtain ⟨st, t, chains₁, heq, hok, hsteps⟩ := maybeGrow_steps mem h
    have hreplaced : grows cfg s (.put (some key) (some value)) = decide (st = .ok) := by
      rw [grows, decide_eq_true hne, hgrow, Bool.true_and, Bool.true_and, ← Bool.decide_and]
      exact decide_eq_decide.mpr hok.symm
    rw [hreplaced]
    -- the array is replaced exactly by a growth that ends well; the put then goes on in the new one
    by_cases hst : st = .ok
    · subst hst
      obtain ⟨st', u, chains₂, hput, hlater⟩ := chainPut_steps mem hsteps.inv key value
      refine ⟨st', u, chains₂, ?_, ?_⟩
      · simp only [put, hne, if_false, hgrow, if_true, heq, ne_eq, not_true_eq_false, hput]
      · simp only [putBlocks, hne, if_false, hgrow, if_true, heq]
        exact hsteps.trans hlater
    · refine ⟨st, t, chains₁, ?_, ?_⟩
      · simp only [put, hne, if_false, hgrow, if_true, heq, ne_eq, hst, not_false_eq_true]
      · have hblocks : (fun array => putBlocks mem cfg array s (some key) (some value)) =
            fun array => maybeGrowBlocks mem cfg array s := by
          funext array
          simp only [putBlocks, hne, if_false, hgrow, if_true, heq]
          split
          · next hmatch =>
            cases hmatch
            exact absurd rfl hst
          · exact List.append_nil _
        rw [hblocks]
        exact hsteps
  · obtain ⟨st, u, chains₁, hput, hsteps⟩ := chainPut_steps mem h key value
    rw [Bool.not_eq_true] at hgrow
    have hreplaced : grows cfg s (.put (some key) (some value)) = false := by
      rw [grows, hgrow, Bool.and_false, Bool.false_and, Bool.false_and]
    rw [hreplaced]
    refine ⟨st, u, chains₁, ?_, ?_⟩
    · simp only [put, hne, if_false, hgrow, Bool.false_eq_true, hput]
    · simp only [putBlocks, hne, if_false, hgrow, Bool.false_eq_true]
      exact hsteps

/-! ## Clearing -/

/-- The loop of `chain_clear` over one chain frees its nodes. -/
theorem clearChainNodes_eq (cfg : ChainConfig w K V) {p : Option ℕ} {xs : List ℕ}
    (hwalk : Seg s.next p xs none) {rounds : ℕ} (hrounds : xs.length ≤ rounds) :
    clearChainNodes cfg rounds s p = xs := by
  induction xs generalizing p s rounds with
  | nil =>
    obtain rfl : p = none := hwalk
    cases rounds <;> rfl
  | cons x xs ih =>
    obtain ⟨rfl, hrest⟩ := hwalk
    cases rounds with
    | zero => cases hrounds
    | succ rounds =>
      rw [clearChainNodes, ih (s := destroyChainNode cfg s x) hrest
        (Nat.le_of_succ_le_succ hrounds)]

/-- The loop of `chain_clear` over the remaining buckets frees their nodes. -/
theorem clearBucketsNodes_eq (cfg : ChainConfig w K V) {is : List ℕ}
    (hwalk : ∀ i ∈ is, Seg s.next (s.buckets i) (chains i) none)
    (hrounds : ∀ i ∈ is, (chains i).length ≤ s.rounds) (hnodup : (is.flatMap chains).Nodup)
    (his : is.Nodup) : clearBucketsNodes cfg is s = is.flatMap chains := by
  induction is generalizing s with
  | nil => rfl
  | cons i is ih =>
    rw [List.flatMap_cons] at hnodup ⊢
    obtain ⟨hi, his⟩ := List.nodup_cons.mp his
    have hchain := clearChainNodes_eq cfg (hwalk i List.mem_cons_self)
      (hrounds i List.mem_cons_self)
    obtain ⟨keys, values, heq, -⟩ := clearChain_eq cfg (hwalk i List.mem_cons_self) hnodup
      (hrounds i List.mem_cons_self)
    rw [clearBucketsNodes, hchain, heq]
    refine congrArg (chains i ++ ·) (ih (fun j hj => ?_)
      (fun j hj => hrounds j (List.mem_cons_of_mem i hj)) (List.nodup_append.mp hnodup).2.1 his)
    have hne : j ≠ i := by
      rintro rfl
      exact hi hj
    show Seg s.next (Function.update s.buckets i none j) (chains j) none
    rw [Function.update_of_ne hne]
    exact hwalk j (List.mem_cons_of_mem i hj)

/-- **`clear`** frees the nodes of all chains. -/
theorem clearNodes_eq (h : Inv cfg s chains) : clearNodes cfg s = stored s chains := by
  have hne : s.bucketCount ≠ 0 := by
    intro hzero
    have hpos := h.pos
    rw [hzero] at hpos
    simp at hpos
  rw [clearNodes, if_neg hne]
  exact clearBucketsNodes_eq cfg (fun i hi => h.chained.walk i (List.mem_range.mp hi))
    (fun i hi => h.length_le (List.mem_range.mp hi)) h.chained.nodup List.nodup_range

theorem clearChain_allocs (cfg : ChainConfig w K V) {rounds : ℕ} {p : Option ℕ}
    (h : clearChain cfg rounds s p = some u) : u.allocs = s.allocs := by
  induction rounds generalizing s p with
  | zero =>
    cases p with
    | none =>
      cases h
      rfl
    | some i => cases h
  | succ rounds ih =>
    cases p with
    | none =>
      cases h
      rfl
    | some i => exact ih (s := destroyChainNode cfg s i) h

theorem clearBuckets_allocs (cfg : ChainConfig w K V) {is : List ℕ}
    (h : clearBuckets cfg is s = some u) : u.allocs = s.allocs := by
  induction is generalizing s with
  | nil =>
    cases h
    rfl
  | cons i is ih =>
    rw [clearBuckets] at h
    split at h
    · cases h
    · next hchain =>
      have hallocs := clearChain_allocs cfg hchain
      have hrest := ih h
      exact hrest.trans hallocs

theorem clear_allocs (cfg : ChainConfig w K V) (h : clear cfg s = some u) :
    u.allocs = s.allocs := by
  unfold clear at h
  split at h
  · cases h
    rfl
  · obtain ⟨t, hclear, rfl⟩ := Option.map_eq_some_iff.mp h
    have hallocs := clearBuckets_allocs cfg hclear
    exact hallocs

/-- **`clear`** is a step. -/
theorem clear_steps (mem : RawMemory) (h : Inv cfg s chains) :
    ∃ u, clear cfg s = some u ∧ stored u (fun _ => []) = [] ∧
      Steps mem cfg s u chains (fun _ => []) (fun _ => clearBlocks mem cfg s) false := by
  obtain ⟨u, heq, hinv, hnothing, hholding, -⟩ := clear_cases h
  have hallocs := clear_allocs cfg heq
  refine ⟨u, heq, hnothing, ⟨hinv, hallocs.ge, fun hheld => ?_,
    fun huses array heap hapart hheap => ?_⟩⟩
  · rw [hnothing]
    exact hholding hheld
  · rw [hnothing, hallocs, clearBlocks, clearNodes_eq h, flatMap_freed huses]
    exact ⟨fun n hn => ⟨(hapart n hn).1, List.not_mem_nil⟩,
      holds_freed_all hheap (List.Perm.refl _) h.chained.nodup
        fun n hn heq => (hapart n heq).2 hn⟩

/-- The core, with its blocks. -/
def mapCore (mem : RawMemory) (cfg : ChainConfig w K V) :
    MapCore (ChainMap w K V) (Call K V) (Option (Reply K V)) where
  call := call cfg
  allocs s := s.allocs
  blocks := callBlocks mem cfg
  replaces := grows cfg
  clear := clear cfg
  clearBlocks := clearBlocks mem cfg

/-- Without the heap there are no events. -/
theorem blocks_eq_nil (huses : mem.usesHeap = false)
    (hraw : mem.arena = false → mem.allowHeap = false → ∀ n bytes, cfg.allocRaw n bytes ≠ .ok)
    (array : MapArray) (s : ChainMap w K V) (c : Call K V) :
    callBlocks mem cfg array s c = [] ∧ clearBlocks mem cfg s = [] := by
  have hfreed := freed_eq_nil huses
  -- a request that is granted is one to the arena
  have hgranted : ∀ n bytes, cfg.allocRaw n bytes = .ok → ∀ n, mem.granted n = [] := by
    intro n bytes hok m
    have harena : mem.arena = true := by
      by_contra harena
      rw [Bool.not_eq_true] at harena
      rw [usesHeap, harena, Bool.not_false, Bool.true_and] at huses
      exact hraw harena huses n bytes hok
    rw [granted, harena]
    rfl
  have hnode : ∀ (s : ChainMap w K V) key value, allocChainNodeBlocks mem cfg s key value = [] := by
    intro s key value
    unfold allocChainNodeBlocks
    split
    · rfl
    · next halloc =>
      rw [hgranted _ _ (not_not.mp halloc), List.nil_append]
      split
      · rfl
      · exact hfreed _
  have hput : ∀ (s : ChainMap w K V) key value, chainPutBlocks mem cfg s key value = [] := by
    intro s key value
    unfold chainPutBlocks
    split
    · exact hnode s key value
    · rfl
  have hgrow : ∀ (s : ChainMap w K V), maybeGrowBlocks mem cfg array s = [] := by
    intro s
    unfold maybeGrowBlocks chainRehashBlocks MapArray.release
    dsimp only
    split
    · rfl
    split
    · rfl
    · next halloc =>
      rw [hgranted _ _ (not_not.mp halloc), List.nil_append, hfreed, ite_self]
  have hclear : ∀ (s : ChainMap w K V), clearBlocks mem cfg s = [] := by
    intro s
    rw [clearBlocks, List.flatMap_eq_nil_iff]
    exact fun n _ => hfreed _
  refine ⟨?_, hclear s⟩
  rcases c with ⟨_ | key, _ | value⟩ | _ | (_ | key) | _ | _ | _
  all_goals try rfl
  · show putBlocks mem cfg array s (some key) (some value) = []
    unfold putBlocks
    dsimp only
    split
    · rfl
    split
    · rw [hgrow, List.nil_append]
      split
      · exact hput _ key value
      · rfl
    · exact hput s key value
  · show chainRemoveBlocks mem cfg s key = []
    unfold chainRemoveBlocks
    split
    · exact hfreed _
    · rfl
  · exact hclear s

/-- **Every call is a step** and returns. -/
theorem call_steps (mem : RawMemory) (h : Inv cfg s chains) (c : Call K V) :
    ∃ chains', Steps mem cfg s (call cfg s c).2 chains chains'
      (fun array => callBlocks mem cfg array s c) (grows cfg s c) := by
  cases c with
  | put key value =>
    obtain ⟨st, u, chains', heq, hsteps⟩ := put_steps mem h key value
    refine ⟨chains', ?_⟩
    rw [call, heq]
    exact hsteps
  | get key out =>
    refine ⟨chains, ?_⟩
    rcases key with _ | key
    · exact .refl h
    rcases out with _ | out
    · exact .refl h
    -- a copy to the caller changes no slot
    rcases chainFind_cases h (h.bucketIndex_lt key) key with
      ⟨as, found, bs, -, hfind⟩ | ⟨-, prev, hfind⟩
    · simp only [call, ChainMap.get, chainGet, hfind, Option.map_some]
      exact ⟨h.withCells _ _, le_rfl, fun hheld => ⟨hheld.keys, hheld.values⟩,
        fun _ _ _ hapart hheap => ⟨hapart, hheap⟩⟩
    · simp only [call, ChainMap.get, chainGet, hfind, Option.map_some]
      exact .refl h
  | remove key =>
    rcases key with _ | key
    · exact ⟨chains, .refl h⟩
    · obtain ⟨st, u, chains', heq, hsteps⟩ := chainRemove_steps mem h key
      refine ⟨chains', ?_⟩
      rw [call, remove, heq]
      exact hsteps
  | contains key => exact ⟨chains, .refl h⟩
  | clear =>
    obtain ⟨u, heq, -, hsteps⟩ := clear_steps mem h
    refine ⟨fun _ => [], ?_⟩
    rw [call, heq]
    exact hsteps
  | «foreach» visit => exact ⟨chains, .refl h⟩

/-- **The core is sound**, for its invariant. -/
theorem mapCore_sound (mem : RawMemory) (cfg : ChainConfig w K V)
    (hraw : mem.arena = false → mem.allowHeap = false → ∀ n bytes, cfg.allocRaw n bytes ≠ .ok) :
    (mapCore mem cfg).Sound mem
      fun s nodes => ∃ chains, Inv cfg s chains ∧ nodes = stored s chains where
  call := by
    rintro s _ c ⟨chains, h, rfl⟩
    obtain ⟨chains', hsteps⟩ := call_steps mem h c
    exact ⟨_, ⟨chains', hsteps.inv, rfl⟩, hsteps.blocks⟩
  clear := by
    rintro s _ ⟨chains, h, rfl⟩
    obtain ⟨u, heq, -, -⟩ := clear_steps mem h
    refine ⟨h.chained.nodup, ⟨u, heq⟩, fun huses => ⟨_, List.Perm.refl _, ?_⟩⟩
    show clearBlocks mem cfg s = _
    rw [clearBlocks, clearNodes_eq h, flatMap_freed huses]
  silent huses array s :=
    ⟨fun c => (blocks_eq_nil huses hraw array s c).1, (blocks_eq_nil huses hraw array s .clear).2⟩
  refused harena hallow s c := by
    show grows cfg s c = false
    unfold grows
    split
    · rw [decide_eq_false (hraw harena hallow _ _), Bool.and_false]
    · rfl

end ChainMap

end Memkit
