import Memkit.Hashing.MapBlocks
import Memkit.Hashing.OpenAddressing

/-! # The blocks of memory of the open-addressing hash map

`open_rehash` is the only place of the core where a block is obtained: another array of slots. It
is freed again if an entry could not be put into it, and else the old array is. -/

namespace Memkit

open RawMemory
open Ledger (Event)

namespace OpenMap

variable {w : ℕ} {K V : Type*}

/-! ## Events -/

/-- The entries put into an array of `newBucketCount` zeroed slots. -/
def rehashed (cfg : HashMapConfig w K V) (s : OpenMap w K V) (newBucketCount : BitVec w) :
    Status × OpenMap w K V :=
  rehashLoop cfg s.slots (List.range s.buckets)
    (freshSlots cfg { s with allocs := s.allocs + 1 } newBucketCount)

/-- The events of `open_rehash`. -/
def openRehashBlocks (mem : RawMemory) (cfg : HashMapConfig w K V) (array : MapArray)
    (s : OpenMap w K V) (newBucketCount : BitVec w) : List (Event (Block MapArea)) :=
  if cfg.allocRaw s.allocs (newBucketCount * cfg.slotStride) ≠ .ok then []
  else
    mem.granted s.allocs ++
      if (rehashed cfg s newBucketCount).1 ≠ .ok then mem.freed (node s.allocs)
      else array.release mem

/-- The events of `maybe_grow`. -/
def maybeGrowBlocks (mem : RawMemory) (cfg : HashMapConfig w K V) (array : MapArray)
    (s : OpenMap w K V) : List (Event (Block MapArea)) :=
  let newCount := growBucketCount s.bucketCount
  if newCount = s.bucketCount then [] else openRehashBlocks mem cfg array s newCount

/-- The events of a call: only `put` may grow. -/
def callBlocks (mem : RawMemory) (cfg : HashMapConfig w K V) (array : MapArray)
    (s : OpenMap w K V) : Call K V → List (Event (Block MapArea))
  | .put (some _) (some _) =>
    if s.bucketCount = 0 then []
    else if shouldGrow cfg.growable s.bucketCount s.size then maybeGrowBlocks mem cfg array s
    else []
  | _ => []

/-- A put that grows: the load limit is reached, the count can be doubled, there is memory, and
every entry can be put into it. -/
def grows (cfg : HashMapConfig w K V) (s : OpenMap w K V) : Call K V → Bool
  | .put (some _) (some _) =>
    let newCount := growBucketCount s.bucketCount
    decide (s.bucketCount ≠ 0) && shouldGrow cfg.growable s.bucketCount s.size &&
      decide (newCount ≠ s.bucketCount) &&
      decide (cfg.allocRaw s.allocs (newCount * cfg.slotStride) = .ok) &&
      decide ((rehashed cfg s newCount).1 = .ok)
  | _ => false

/-- The core, with its blocks: `clear` frees none. -/
def mapCore (mem : RawMemory) (cfg : HashMapConfig w K V) :
    MapCore (OpenMap w K V) (Call K V) (Reply V) where
  call := call cfg
  allocs s := s.allocs
  blocks := callBlocks mem cfg
  replaces := grows cfg
  clear s := some (clear cfg s)
  clearBlocks _ := []

variable {mem : RawMemory} {cfg : HashMapConfig w K V} {s u : OpenMap w K V}
  {heap : Ledger (Block MapArea)} {array : MapArray}

/-! ## Requests -/

@[simp] theorem openPut_allocs (cfg : HashMapConfig w K V) (s : OpenMap w K V) (key : K)
    (value : V) : (openPut cfg s key value).2.allocs = s.allocs := by
  unfold openPut
  dsimp only
  repeat' split
  all_goals rfl

theorem rehashLoop_allocs (cfg : HashMapConfig w K V) (oldSlots : ℕ → Slot K V) (is : List ℕ)
    (s : OpenMap w K V) : (rehashLoop cfg oldSlots is s).2.allocs = s.allocs := by
  induction is generalizing s with
  | nil => rfl
  | cons i is ih =>
    rw [rehashLoop]
    dsimp only
    split
    · exact ih s
    split
    · exact openPut_allocs ..
    · exact (ih _).trans (openPut_allocs ..)

theorem foldl_clearSlot_allocs (cfg : HashMapConfig w K V) (is : List ℕ) (s : OpenMap w K V) :
    (is.foldl (clearSlot cfg) s).allocs = s.allocs := by
  induction is generalizing s with
  | nil => rfl
  | cons i is ih =>
    rw [List.foldl_cons, ih]
    unfold clearSlot
    dsimp only
    split <;> rfl

/-- `open_rehash`, by the entries put into the new array. -/
theorem openRehash_eq (cfg : HashMapConfig w K V) (s : OpenMap w K V) (newBucketCount : BitVec w) :
    openRehash cfg s newBucketCount =
      if cfg.allocRaw s.allocs (newBucketCount * cfg.slotStride) ≠ .ok then
        (cfg.allocRaw s.allocs (newBucketCount * cfg.slotStride), { s with allocs := s.allocs + 1 })
      else if (rehashed cfg s newBucketCount).1 ≠ .ok then
        ((rehashed cfg s newBucketCount).1,
          { (rehashed cfg s newBucketCount).2 with
            slots := s.slots, bucketCount := s.bucketCount, size := s.size })
      else (.ok, (rehashed cfg s newBucketCount).2) := rfl

/-- `open_rehash` makes one request, and is ok if memory is granted and every entry is put. -/
theorem openRehash_request (cfg : HashMapConfig w K V) (s : OpenMap w K V)
    (newBucketCount : BitVec w) :
    (openRehash cfg s newBucketCount).2.allocs = s.allocs + 1 ∧
      ((openRehash cfg s newBucketCount).1 = .ok ↔
        cfg.allocRaw s.allocs (newBucketCount * cfg.slotStride) = .ok ∧
          (rehashed cfg s newBucketCount).1 = .ok) := by
  have hallocs : (rehashed cfg s newBucketCount).2.allocs = s.allocs + 1 :=
    rehashLoop_allocs cfg s.slots (List.range s.buckets) _
  rw [openRehash_eq]
  split
  · next hrefused => exact ⟨rfl, iff_of_false hrefused fun hok => hrefused hok.1⟩
  · next hgranted =>
    rw [not_not] at hgranted
    split
    · next hfailed => exact ⟨hallocs, iff_of_false hfailed fun hok => hfailed hok.2⟩
    · next hok => exact ⟨hallocs, iff_of_true rfl ⟨hgranted, not_not.mp hok⟩⟩

/-! ## One call -/

/-- **`maybe_grow`** obtains another array and frees the old one, or leaves the heap as it is. -/
theorem maybeGrow_blocks (cfg : HashMapConfig w K V) (huses : mem.usesHeap = true)
    (hapart : array.Apart s.allocs [])
    (hheap : heap.Holds {b | b ∈ ownedBlocks [] array}) :
    let after := if (maybeGrow cfg s).1 = .ok then mem.replaced s.allocs else array
    after.Apart (maybeGrow cfg s).2.allocs [] ∧
      (heap.replay (maybeGrowBlocks mem cfg array s)).Holds {b | b ∈ ownedBlocks [] after} := by
  intro after
  unfold after maybeGrow maybeGrowBlocks
  dsimp only
  split
  · exact ⟨hapart, hheap⟩
  obtain ⟨hallocs, hok⟩ := openRehash_request cfg s (growBucketCount s.bucketCount)
  rw [hallocs, openRehashBlocks]
  have hkept : array.Apart (s.allocs + 1) [] := fun n hn =>
    ⟨Nat.lt_succ_of_lt (hapart n hn).1, List.not_mem_nil⟩
  by_cases halloc :
      cfg.allocRaw s.allocs (growBucketCount s.bucketCount * cfg.slotStride) = .ok
  · rw [if_neg (not_not.mpr halloc)]
    by_cases hput : (rehashed cfg s (growBucketCount s.bucketCount)).1 = .ok
    · rw [if_pos (hok.mpr ⟨halloc, hput⟩), if_neg (not_not.mpr hput)]
      refine ⟨fun n hn => ?_, holds_replaced huses hheap hapart List.not_mem_nil⟩
      obtain rfl : s.allocs = n := node_injective hn
      exact ⟨Nat.lt_succ_self _, List.not_mem_nil⟩
    · -- the new array is freed again
      have hblock : array.block ≠ node s.allocs := fun heq => lt_irrefl _ (hapart _ heq).1
      have hgranted := holds_granted huses hheap hblock List.not_mem_nil
      have hperm := ownedBlocks_perm_cons (List.Perm.refl [s.allocs]) array
      rw [if_neg fun hall => hput (hok.mp hall).2, if_pos hput, Ledger.replay_append]
      refine ⟨hkept, holds_freed huses ?_ (List.Perm.refl [s.allocs]) hblock List.not_mem_nil⟩
      rwa [show {b | b ∈ ownedBlocks [s.allocs] array} =
        {b | b ∈ node s.allocs :: ownedBlocks [] array} from Set.ext fun _ => hperm.mem_iff]
  · rw [if_neg fun hall => halloc (hok.mp hall).1, if_pos halloc]
    exact ⟨hkept, hheap⟩

/-- Without the heap there are no events. -/
theorem blocks_eq_nil (huses : mem.usesHeap = false)
    (hraw : mem.arena = false → mem.allowHeap = false → ∀ n bytes, cfg.allocRaw n bytes ≠ .ok)
    (array : MapArray) (s : OpenMap w K V) (c : Call K V) : callBlocks mem cfg array s c = [] := by
  have hfreed := freed_eq_nil huses
  unfold callBlocks
  split
  · split
    · rfl
    split
    · unfold maybeGrowBlocks openRehashBlocks MapArray.release
      dsimp only
      split
      · rfl
      split
      · rfl
      · next halloc =>
        rw [not_not] at halloc
        have harena : mem.arena = true := by
          by_contra harena
          rw [Bool.not_eq_true] at harena
          rw [usesHeap, harena, Bool.not_false, Bool.true_and] at huses
          exact hraw harena huses _ _ halloc
        rw [granted, harena, if_pos rfl, List.nil_append, hfreed, hfreed, ite_self, ite_self]
    · rfl
  · rfl

/-- What a put does to the count of requests, and when it grows. -/
theorem put_request (cfg : HashMapConfig w K V) (s : OpenMap w K V) (key : K) (value : V)
    (hgrow : s.bucketCount ≠ 0 ∧ shouldGrow cfg.growable s.bucketCount s.size = true) :
    (put cfg s (some key) (some value)).2.allocs = (maybeGrow cfg s).2.allocs ∧
      grows cfg s (.put (some key) (some value)) = decide ((maybeGrow cfg s).1 = .ok) := by
  obtain ⟨hne, hgrow⟩ := hgrow
  constructor
  · unfold put
    simp only [hne, if_false, hgrow, if_true]
    split
    · rfl
    · exact openPut_allocs ..
  · unfold grows maybeGrow
    dsimp only
    rw [decide_eq_true hne, hgrow, Bool.true_and, Bool.true_and]
    split
    · next hsame => simp [hsame]
    · next hnew =>
      rw [decide_eq_true hnew, Bool.true_and, ← Bool.decide_and]
      exact decide_eq_decide.mpr (openRehash_request cfg s _).2.symm

/-- **Every call** keeps the heap in step with what is owned. -/
theorem call_blocks (huses : mem.usesHeap = true) (c : Call K V) (hapart : array.Apart s.allocs [])
    (hheap : heap.Holds {b | b ∈ ownedBlocks [] array}) :
    let after := if grows cfg s c then mem.replaced s.allocs else array
    after.Apart (call cfg s c).2.allocs [] ∧
      (heap.replay (callBlocks mem cfg array s c)).Holds {b | b ∈ ownedBlocks [] after} := by
  intro after
  -- what a call does that requests nothing
  have hquiet : ∀ {u : OpenMap w K V}, u.allocs = s.allocs →
      array.Apart u.allocs [] ∧ heap.Holds {b | b ∈ ownedBlocks [] array} := by
    intro u hallocs
    rw [hallocs]
    exact ⟨hapart, hheap⟩
  rcases c with ⟨_ | key, _ | value⟩ | ⟨_ | key, _ | out⟩ | (_ | key) | key | _
  case put.some.some =>
    unfold after
    by_cases hgrow : s.bucketCount ≠ 0 ∧ shouldGrow cfg.growable s.bucketCount s.size = true
    · obtain ⟨hallocs, hgrows⟩ := put_request cfg s key value hgrow
      have hblocks : callBlocks mem cfg array s (.put (some key) (some value)) =
          maybeGrowBlocks mem cfg array s := by
        rw [callBlocks, if_neg hgrow.1, if_pos hgrow.2]
      have hgrown := maybeGrow_blocks cfg huses hapart hheap
      rw [call, hallocs, hgrows, hblocks]
      simpa only [decide_eq_true_eq] using hgrown
    · have hgrows : grows cfg s (.put (some key) (some value)) = false := by
        simp only [not_and, Bool.not_eq_true, ne_eq] at hgrow
        by_cases hne : s.bucketCount = 0
        · simp [grows, hne]
        · simp [grows, hgrow hne]
      have hblocks : callBlocks mem cfg array s (.put (some key) (some value)) = [] := by
        simp only [not_and, Bool.not_eq_true, ne_eq] at hgrow
        by_cases hne : s.bucketCount = 0
        · simp [callBlocks, hne]
        · simp [callBlocks, hgrow hne]
      have hallocs : (put cfg s (some key) (some value)).2.allocs = s.allocs := by
        unfold put
        dsimp only
        split
        · rfl
        · next hne =>
          rw [if_neg fun hshould => hgrow ⟨hne, hshould⟩]
          exact openPut_allocs ..
      rw [hgrows, hblocks, if_neg Bool.false_ne_true]
      exact hquiet hallocs
  case get.some.some =>
    refine hquiet ?_
    simp only [call, get, openGet]
    split <;> rfl
  case remove.some =>
    refine hquiet ?_
    simp only [call, remove, openRemove]
    split <;> rfl
  case clear =>
    refine hquiet ?_
    simp only [call, clear]
    split
    · rfl
    · exact foldl_clearSlot_allocs ..
  all_goals exact ⟨hapart, hheap⟩

/-- **The core is sound**: it has no nodes. -/
theorem mapCore_sound (mem : RawMemory) (cfg : HashMapConfig w K V)
    (hraw : mem.arena = false → mem.allowHeap = false → ∀ n bytes, cfg.allocRaw n bytes ≠ .ok) :
    (mapCore mem cfg).Sound mem fun _ nodes => nodes = [] where
  call := by
    rintro s _ c rfl
    exact ⟨[], rfl, fun huses _ _ hapart hheap => call_blocks huses c hapart hheap⟩
  clear := by
    rintro s _ rfl
    exact ⟨List.nodup_nil, ⟨_, rfl⟩, fun _ => ⟨[], List.Perm.refl _, rfl⟩⟩
  silent huses array s := ⟨blocks_eq_nil huses hraw array s, rfl⟩
  refused harena hallow s c := by
    show grows cfg s c = false
    unfold grows
    split
    · dsimp only
      rw [decide_eq_false (hraw harena hallow _ _), Bool.and_false, Bool.false_and]
    · rfl

end OpenMap

end Memkit
