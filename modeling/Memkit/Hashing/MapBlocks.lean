import Memkit.Core.HeapBlocks

/-! # The blocks of memory of a hash map

What `alloc_raw` and `free_raw` of `detail/hashmap_map_core.hpp` do to the heap, and the bucket or
slot array, which growth replaces. Both strategies are cores in the same way (`MapCore`); what a box
needs to know of one is `MapCore.Sound`. -/

namespace Memkit

open Ledger (Event)

/-- What a map asks for a block for: the first array, asked for by the box, or a request of the
core. -/
inductive MapArea
  | storage
  | request (n : ℕ)
  deriving DecidableEq, Repr

/-- The values of `hashmap_storage_kind` that the code makes: `external`, `owns | arena` and
`owns | heap`. -/
inductive MapStorageKind
  | external
  | ownsArena
  | ownsHeap
  deriving DecidableEq, Repr

namespace MapStorageKind

/-- The bit `owns`. -/
def owns : MapStorageKind → Bool
  | external => false
  | ownsArena => true
  | ownsHeap => true

/-- The bit `heap`. -/
def heap : MapStorageKind → Bool
  | external => false
  | ownsArena => false
  | ownsHeap => true

end MapStorageKind

/-- `buckets_` or `slots_`, and `storage_kind_`. -/
structure MapArray where
  block : Block MapArea
  kind : MapStorageKind
  deriving DecidableEq, Repr

/-- Where the core gets its memory. -/
structure RawMemory where
  /-- Whether `arena_alloc_fn_` is not null. -/
  arena : Bool
  /-- `MEMKIT_ALLOW_HEAP`. -/
  allowHeap : Bool

namespace RawMemory

/-- The block of a request. -/
def node (n : ℕ) : Block MapArea := .obtained (.request n)

theorem node_injective : Function.Injective node := by
  intro a b h
  cases h
  rfl

/-- The event of a request to `alloc_raw` that was granted. -/
def granted (mem : RawMemory) (n : ℕ) : List (Event (Block MapArea)) :=
  if mem.arena then [] else [.construct (node n) true]

/-- The event of `free_raw`. -/
def freed (mem : RawMemory) (block : Block MapArea) : List (Event (Block MapArea)) :=
  if mem.arena || !mem.allowHeap then [] else [.destroy block]

/-- The blocks of the core are blocks of the heap. -/
def usesHeap (mem : RawMemory) : Bool := !mem.arena && mem.allowHeap

variable {mem : RawMemory}

theorem granted_eq (h : mem.usesHeap = true) (n : ℕ) :
    mem.granted n = [.construct (node n) true] := by
  rw [usesHeap, Bool.and_eq_true, Bool.not_eq_true'] at h
  rw [granted, h.1]
  rfl

theorem freed_eq (h : mem.usesHeap = true) (block : Block MapArea) :
    mem.freed block = [.destroy block] := by
  rw [usesHeap, Bool.and_eq_true, Bool.not_eq_true'] at h
  rw [freed, h.1, h.2]
  rfl

theorem freed_eq_nil (h : mem.usesHeap = false) (block : Block MapArea) : mem.freed block = [] := by
  unfold usesHeap at h
  unfold freed
  rcases harena : mem.arena with _ | _
  · rw [harena, Bool.not_false, Bool.true_and] at h
    rw [h]
    rfl
  · rfl

/-- The array after a growth that returned ok, to the block of request `n`. -/
def replaced (mem : RawMemory) (n : ℕ) : MapArray :=
  ⟨node n, if mem.arena then .ownsArena else .ownsHeap⟩

end RawMemory

/-- The part of the array that the heap holds. -/
def MapArray.ofHeap (array : MapArray) : List (Block MapArea) :=
  if array.kind.heap then [array.block] else []

/-- `free_raw` of an array that is owned and of the heap: where growth drops the old one and in
`release_storage`. -/
def MapArray.release (mem : RawMemory) (array : MapArray) : List (Event (Block MapArea)) :=
  if array.kind.owns && array.kind.heap then mem.freed array.block else []

/-- A core with what it does to the blocks of memory. -/
structure MapCore (σ ι ο : Type*) where
  call : σ → ι → ο × σ
  /-- Requests to `alloc_raw` so far. -/
  allocs : σ → ℕ
  /-- The events of a call, for the array before it. -/
  blocks : MapArray → σ → ι → List (Event (Block MapArea))
  /-- Whether a call grows, so that there is another array after it. -/
  replaces : σ → ι → Bool
  /-- `clear`; `none` if it does not return. -/
  clear : σ → Option σ
  /-- The events of `clear`. -/
  clearBlocks : σ → List (Event (Block MapArea))

/-- The blocks that the heap holds for a map: those of its nodes, and the array. -/
def ownedBlocks (nodes : List ℕ) (array : MapArray) : List (Block MapArea) :=
  array.ofHeap ++ nodes.map RawMemory.node

/-- The array is not the block of a node, nor of a request to come. -/
def MapArray.Apart (array : MapArray) (allocs : ℕ) (nodes : List ℕ) : Prop :=
  ∀ n, array.block = RawMemory.node n → n < allocs ∧ n ∉ nodes

section Owned

open RawMemory

variable {mem : RawMemory} {nodes nodes' : List ℕ} {array : MapArray} {n : ℕ}
  {heap : Ledger (Block MapArea)}

theorem notMem_ownedBlocks (harray : array.block ≠ node n) (hn : n ∉ nodes) :
    node n ∉ ownedBlocks nodes array := by
  intro hmem
  rcases List.mem_append.mp hmem with hmem | hmem
  · unfold MapArray.ofHeap at hmem
    split at hmem
    · exact harray (List.mem_singleton.mp hmem).symm
    · cases hmem
  · obtain ⟨i, hi, heq⟩ := List.mem_map.mp hmem
    exact hn (node_injective heq ▸ hi)

/-- One node more. -/
theorem ownedBlocks_perm_cons (h : nodes'.Perm (n :: nodes)) (array : MapArray) :
    (ownedBlocks nodes' array).Perm (node n :: ownedBlocks nodes array) :=
  ((h.map node).append_left array.ofHeap).trans List.perm_middle

/-- The order of the nodes does not matter. -/
theorem setOf_ownedBlocks_perm (h : nodes'.Perm nodes) (array : MapArray) :
    {b | b ∈ ownedBlocks nodes' array} = {b | b ∈ ownedBlocks nodes array} :=
  Set.ext fun _ => ((h.map node).append_left array.ofHeap).mem_iff

/-- A node is obtained. -/
theorem holds_granted (huses : mem.usesHeap = true)
    (h : heap.Holds {b | b ∈ ownedBlocks nodes array}) (harray : array.block ≠ node n)
    (hn : n ∉ nodes) :
    (heap.replay (mem.granted n)).Holds {b | b ∈ node n :: ownedBlocks nodes array} := by
  rw [granted_eq huses]
  exact h.construct_perm (List.Perm.refl _) (notMem_ownedBlocks harray hn)

/-- A node is freed. -/
theorem holds_freed (huses : mem.usesHeap = true)
    (h : heap.Holds {b | b ∈ ownedBlocks nodes' array}) (hperm : nodes'.Perm (n :: nodes))
    (harray : array.block ≠ node n) (hn : n ∉ nodes) :
    (heap.replay (mem.freed (node n))).Holds {b | b ∈ ownedBlocks nodes array} := by
  rw [freed_eq huses]
  exact h.destroy_perm (ownedBlocks_perm_cons hperm array) (notMem_ownedBlocks harray hn)

/-- Some nodes are freed one after the other. -/
theorem flatMap_freed (huses : mem.usesHeap = true) (nodes : List ℕ) :
    nodes.flatMap (fun n => mem.freed (node n)) = (nodes.map node).map .destroy := by
  induction nodes with
  | nil => rfl
  | cons n nodes ih => rw [List.flatMap_cons, ih, freed_eq huses, List.map_cons, List.map_cons]; rfl

/-- All nodes are freed. -/
theorem holds_freed_all (h : heap.Holds {b | b ∈ ownedBlocks nodes array})
    (hperm : nodes'.Perm nodes) (hnodup : nodes.Nodup)
    (harray : ∀ n ∈ nodes, array.block ≠ node n) :
    (heap.replay ((nodes'.map node).map .destroy)).Holds {b | b ∈ ownedBlocks [] array} := by
  rw [Ledger.replay_map_destroy]
  have hmem : ∀ b ∈ nodes'.map node, b ∈ {b | b ∈ ownedBlocks nodes array} :=
    fun b hb => List.mem_append_right _ ((hperm.map node).mem_iff.mp hb)
  have hall := h.destroyAll ((hperm.nodup_iff.mpr hnodup).map node_injective) hmem
  refine (congrArg (Ledger.Holds _) ?_).mp hall
  ext b
  rw [Set.mem_sdiff, Set.mem_ofPred_eq, Set.mem_ofPred_eq, Set.mem_ofPred_eq,
    (hperm.map node).mem_iff, ownedBlocks, ownedBlocks, List.map_nil, List.append_nil, List.mem_append]
  constructor
  · rintro ⟨hmem | hmem, hnot⟩
    · exact hmem
    · exact absurd hmem hnot
  · intro hmem
    refine ⟨.inl hmem, fun hnode => ?_⟩
    obtain ⟨n, hn, rfl⟩ := List.mem_map.mp hnode
    unfold MapArray.ofHeap at hmem
    split at hmem
    · exact harray n hn (List.mem_singleton.mp hmem).symm
    · cases hmem

/-- **Growth**: another array is obtained, and the old one is freed if it is one of the heap. -/
theorem holds_replaced (huses : mem.usesHeap = true)
    (h : heap.Holds {b | b ∈ ownedBlocks nodes array}) (hapart : array.Apart n nodes)
    (hn : n ∉ nodes) :
    (heap.replay (mem.granted n ++ array.release mem)).Holds
      {b | b ∈ ownedBlocks nodes (mem.replaced n)} := by
  have hblock : array.block ≠ node n := fun heq => lt_irrefl n (hapart n heq).1
  have hnew : (mem.replaced n).ofHeap = [node n] := by
    have harena : mem.arena = false := by
      rw [usesHeap, Bool.and_eq_true, Bool.not_eq_true'] at huses
      exact huses.1
    rw [replaced, harena]
    rfl
  rw [Ledger.replay_append, ownedBlocks, hnew]
  have hgranted := holds_granted huses h hblock hn
  unfold MapArray.release
  unfold ownedBlocks MapArray.ofHeap at hgranted
  rcases hkind : array.kind with _ | _ | _
  · rw [hkind] at hgranted
    exact hgranted
  · rw [hkind] at hgranted
    exact hgranted
  · rw [hkind] at hgranted
    have hfree : (if MapStorageKind.ownsHeap.owns && MapStorageKind.ownsHeap.heap then
        mem.freed array.block else []) = [.destroy array.block] := freed_eq huses _
    rw [hfree]
    refine hgranted.destroy_perm (List.Perm.swap _ _ _) ?_
    intro hmem
    rcases List.mem_cons.mp hmem with heq | hmem
    · exact hblock heq
    · obtain ⟨i, hi, heq⟩ := List.mem_map.mp hmem
      exact (hapart i heq.symm).2 hi

end Owned

namespace MapCore

variable {σ ι ο : Type*}

/-- The array after a call. -/
def arrayAfter (core : MapCore σ ι ο) (mem : RawMemory) (array : MapArray) (s : σ) (c : ι) :
    MapArray :=
  if core.replaces s c then mem.replaced (core.allocs s) else array

/-- What is known of a core. The invariant lists the nodes of a state. -/
structure Sound (core : MapCore σ ι ο) (mem : RawMemory) (Inv : σ → List ℕ → Prop) : Prop where
  /-- Every call keeps the invariant; and the heap goes on holding what is owned. -/
  call : ∀ {s nodes} (c : ι), Inv s nodes → ∃ nodes', Inv (core.call s c).2 nodes' ∧
    (mem.usesHeap = true → ∀ (array : MapArray) (heap : Ledger (Block MapArea)),
      array.Apart (core.allocs s) nodes → heap.Holds {b | b ∈ ownedBlocks nodes array} →
        (core.arrayAfter mem array s c).Apart (core.allocs (core.call s c).2) nodes' ∧
        (heap.replay (core.blocks array s c)).Holds
          {b | b ∈ ownedBlocks nodes' (core.arrayAfter mem array s c)})
  /-- `clear` returns, and frees the nodes. -/
  clear : ∀ {s nodes}, Inv s nodes → nodes.Nodup ∧ (∃ u, core.clear s = some u) ∧
    (mem.usesHeap = true → ∃ xs : List ℕ, xs.Perm nodes ∧
      core.clearBlocks s = (xs.map RawMemory.node).map .destroy)
  /-- Without the heap nothing is obtained from it and nothing is freed. -/
  silent : mem.usesHeap = false → ∀ array s,
    (∀ c, core.blocks array s c = []) ∧ core.clearBlocks s = []
  /-- Without the heap and without an arena nothing grows. -/
  refused : mem.arena = false → mem.allowHeap = false → ∀ s c, core.replaces s c = false

end MapCore

end Memkit
