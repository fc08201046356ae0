import Memkit.Hashing.ChainingCopies
import Memkit.Hashing.ChainingMap
import Memkit.Hashing.OpenAddressingCopies
import Memkit.Trees.BTreeCopies

/-! # The statuses of the maps when copies fail

`hashmap_map_core` in both layouts and `btree_map_core` with copy callbacks that may fail whenever
they are called: what an ok from `put`, `get` or `insert` is worth. -/

namespace Memkit

open CopyCall

variable {w w' : ℕ} {K V : Type*}

/-- **When the statuses of the maps are truthful**: after any calls, whatever the callbacks returned,
the status of a call tells of every copy that failed, and an ok means that the value was stored or
delivered, exactly if no failure was dropped by `copy_assign` and, for the slots of the open
addressing, the fall-through of the probe does not mislead the call. -/
theorem statuses_truthful_iff (chain : ChainConfig w K V) (slots : HashMapConfig w' K V)
    (tree : BTreeConfig V)
    (hchain : HonestCallbacks chain.keyPolicy chain.valuePolicy chain.hashPolicy)
    (hslots : HonestCallbacks slots.keyPolicy slots.valuePolicy slots.hashPolicy)
    (htree : BTree.Honest tree) (links : ℕ → Option ℕ) (keyMemory : ℕ → K) (memory : ℕ → V)
    {slotMemory : ℕ → Slot K V} {bucketCount : BitVec w'} {s₀ : OpenMap w' K V}
    (hinit : OpenMap.initOpen true slotMemory bucketCount slots.slotStride = .ok s₀) :
    (∀ calls s, Mealy.final (ChainMap.call chain) (.init chain links keyMemory memory) calls = s →
      ∀ c, ChainMap.TruthfulCall chain s c ↔ NoneDropped (ChainMap.copyCalls chain s c)) ∧
    (∀ calls s, Mealy.final (OpenMap.call slots) s₀ calls = s →
      ∀ c, OpenMap.TruthfulCall slots s c ↔
        NoneDropped (OpenMap.copyCalls slots s c) ∧ OpenMap.NotMisled slots s c) ∧
    (∀ calls s, Mealy.final (BTree.call tree) (.init tree links memory) calls = s →
      ∀ c, BTree.TruthfulCall tree s c ↔ NoneDropped (BTree.copyCalls tree s c)) := by
  refine ⟨?_, ?_, ?_⟩
  · rintro calls s rfl c
    exact ChainMap.truthfulCall_reachable_iff chain hchain links keyMemory memory calls c
  · rintro calls s rfl c
    exact OpenMap.truthfulCall_reachable_iff slots hslots hinit calls c
  · rintro calls s rfl c
    exact BTree.truthfulCall_reachable_iff tree htree links memory calls c

/-! ## Runs -/

/-- Copies that succeed but for those from the `first` on, which leave their destination alone. -/
def ElementPolicy.failingFrom (V : Type*) (first : ℕ) : ElementPolicy V where
  copyFn n dst src := if n < first then (.ok, src) else (.oom, dst)
  destroyFn elem := elem

theorem ElementPolicy.faithful_failingFrom (V : Type*) (first : ℕ) :
    (failingFrom V first).Faithful := by
  intro n dst src hok
  by_cases hn : n < first
  · simp [failingFrom, hn]
  · simp [failingFrom, hn] at hok

/-- The map of keys modulo eight, whose second copy of a value fails. -/
def failingChain : ChainConfig 16 ℕ ℕ := ChainMap.octalMap.withValuePolicy (.failingFrom ℕ 1)

/-- The plain map, whose third copy fails. -/
def failingSlots : HashMapConfig 64 ℕ ℕ :=
  { OpenMap.plainConfig false with valuePolicy := .failingFrom ℕ 2 }

/-- The tree ordered by the tens, whose second copy fails. -/
def failingTree : BTreeConfig ℕ := { BTree.tensTree with policy := .failingFrom ℕ 1 }

theorem honest_failingChain :
    HonestCallbacks failingChain.keyPolicy failingChain.valuePolicy failingChain.hashPolicy where
  key := (ElementPolicy.nonFailing_bytewise ℕ).faithful
  value := ElementPolicy.faithful_failingFrom ℕ 1
  refl := ChainMap.plain_octalMap.hash.refl

theorem honest_failingSlots :
    HonestCallbacks failingSlots.keyPolicy failingSlots.valuePolicy failingSlots.hashPolicy where
  key := (ElementPolicy.nonFailing_bytewise ℕ).faithful
  value := ElementPolicy.faithful_failingFrom ℕ 2
  refl := (HashPolicy.lawful_ofDecEq (BitVec.ofNat 64)).refl

theorem honest_failingTree : BTree.Honest failingTree where
  policy := ElementPolicy.faithful_failingFrom ℕ 1
  refl a := sub_self (a / 10 : ℤ)

/-- A failure to construct is reported: a second pair or element finds no room for its copy. -/
theorem statuses_truthful_iff_failing :
    ChainMap.TruthfulCall failingChain
      (Mealy.final (ChainMap.call failingChain)
        (.init failingChain (fun _ => none) (fun _ => 0) fun _ => 0) [.put (some 1) (some 10)])
      (.put (some 2) (some 20)) ∧
    OpenMap.TruthfulCall failingSlots
      (Mealy.final (OpenMap.call failingSlots) (OpenMap.plainMap 3) [.put (some 1) (some 10)])
      (.put (some 2) (some 20)) ∧
    BTree.TruthfulCall failingTree
      (Mealy.final (BTree.call failingTree) (.init failingTree (fun _ => none) fun _ => 0)
        [.insert (some 10)]) (.insert (some 20)) := by
  obtain ⟨hchain, hslots, htree⟩ := statuses_truthful_iff failingChain failingSlots failingTree
    honest_failingChain honest_failingSlots honest_failingTree (fun _ => none) (fun _ => 0)
    (fun _ => 0) OpenMap.init_plainMap_three
  exact ⟨(hchain _ _ rfl _).mpr (by decide +kernel),
    (hslots _ _ rfl _).mpr ⟨by decide +kernel, by decide +kernel⟩,
    (htree _ _ rfl _).mpr (by decide +kernel)⟩

/-- **A failed copy over an old value is reported as ok**: in both layouts of the hash map and in the
tree. -/
theorem dropped_failure_reported_ok :
    ¬ ChainMap.TruthfulCall failingChain
      (Mealy.final (ChainMap.call failingChain)
        (.init failingChain (fun _ => none) (fun _ => 0) fun _ => 0) [.put (some 1) (some 10)])
      (.put (some 1) (some 20)) ∧
    ¬ OpenMap.TruthfulCall failingSlots
      (Mealy.final (OpenMap.call failingSlots) (OpenMap.plainMap 3) [.put (some 1) (some 10)])
      (.put (some 1) (some 20)) ∧
    ¬ BTree.TruthfulCall failingTree
      (Mealy.final (BTree.call failingTree) (.init failingTree (fun _ => none) fun _ => 0)
        [.insert (some 10)]) (.insert (some 10)) := by
  refine ⟨?_, ?_, ?_⟩
  · rintro ⟨reply, hreply, htruthful⟩
    obtain rfl : .status .ok = reply := Option.some.inj (hreply.symm.trans (by decide +kernel)).symm
    exact htruthful.reported ⟨.assign .oom, by decide +kernel, by decide⟩ rfl
  · intro htruthful
    exact htruthful.reported ⟨.assign .oom, by decide +kernel, by decide⟩ (by decide +kernel)
  · rintro ⟨reply, hreply, htruthful⟩
    obtain rfl : .status .ok = reply := Option.some.inj (hreply.symm.trans (by decide +kernel)).symm
    exact htruthful.reported ⟨.assign .oom, by decide +kernel, by decide⟩ rfl

end Memkit
