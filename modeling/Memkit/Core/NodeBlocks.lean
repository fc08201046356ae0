import Memkit.Core.HeapBlocks
import Memkit.Core.NodeView

/-! # The blocks of nodes

The containers of nodes obtain a block for each node that is not of a pool, and free it with the
node. What a call does to the heap is a list of events, at the places of `std::malloc` and
`std::free`.

* **`granted`, `freed`** — the events of one node; there are none if nodes are not of the heap.
* **`HoldsNodes`** — the heap holds the nodes of a container, and other blocks.
* **`Step`** — the events of a call fit what it does to the nodes.
* **`NodeCore.Sound`** — all calls of a core do; `Sound.run` is the run rule. -/

namespace Memkit

open Ledger (Event)

/-- What a container of nodes needs blocks for. -/
inductive NodeArea
  /-- The object of the C interface. -/
  | self
  | pool
  | node (n : ℕ)
  deriving DecidableEq, Repr

namespace NodeBlocks

/-- The block of a node. -/
def block (n : ℕ) : Block NodeArea := .obtained (.node n)

theorem block_injective : Function.Injective block := by
  intro m n h
  cases h
  rfl

/-- The event of a request for a node that is granted. -/
def granted (ofHeap : Bool) (n : ℕ) : List (Event (Block NodeArea)) :=
  if ofHeap then [.construct (block n) true] else []

/-- The event of freeing a node. -/
def freed (ofHeap : Bool) (n : ℕ) : List (Event (Block NodeArea)) :=
  if ofHeap then [.destroy (block n)] else []

/-- The blocks of the heap of some nodes. -/
def heapNodes (ofHeap : Bool) (nodes : List ℕ) : List (Block NodeArea) :=
  if ofHeap then nodes.map block else []

/-- The heap holds the nodes, if they are of the heap, and the blocks `others`, which are not those
of nodes. -/
structure HoldsNodes (ofHeap : Bool) (others : List (Block NodeArea)) (nodes : List ℕ)
    (heap : Ledger (Block NodeArea)) : Prop where
  no_node : ∀ n, block n ∉ others
  holds : heap.Holds {b | b ∈ heapNodes ofHeap nodes ++ others}

variable {ofHeap : Bool} {others : List (Block NodeArea)} {nodes nodes' as bs : List ℕ} {slot : ℕ}
  {heap : Ledger (Block NodeArea)}

theorem notMem_heapNodes (hno : block slot ∉ others) (hslot : slot ∉ nodes) :
    block slot ∉ heapNodes true nodes ++ others := by
  intro hmem
  rcases List.mem_append.mp hmem with hmem | hmem
  · obtain ⟨i, hi, heq⟩ := List.mem_map.mp hmem
    exact hslot (block_injective heq ▸ hi)
  · exact hno hmem

/-- One node more. -/
theorem heapNodes_perm_cons (h : nodes'.Perm (slot :: nodes)) (others : List (Block NodeArea)) :
    (heapNodes true nodes' ++ others).Perm (block slot :: (heapNodes true nodes ++ others)) :=
  (h.map block).append_right others

namespace HoldsNodes

/-- The order of the nodes does not matter. -/
theorem perm (h : HoldsNodes ofHeap others nodes heap) (hperm : nodes.Perm nodes') :
    HoldsNodes ofHeap others nodes' heap := by
  refine ⟨h.no_node, ?_⟩
  have hset : {b | b ∈ heapNodes ofHeap nodes' ++ others} =
      {b | b ∈ heapNodes ofHeap nodes ++ others} := by
    ext b
    cases ofHeap with
    | false => rfl
    | true => exact ((hperm.map block).append_right others).mem_iff.symm
  rw [hset]
  exact h.holds

/-- **A node is obtained.** -/
theorem granted (h : HoldsNodes ofHeap others nodes heap) (hperm : nodes'.Perm (slot :: nodes))
    (hslot : slot ∉ nodes) :
    HoldsNodes ofHeap others nodes' (heap.replay (NodeBlocks.granted ofHeap slot)) := by
  refine ⟨h.no_node, ?_⟩
  cases ofHeap with
  | false => exact h.holds
  | true =>
    exact h.holds.construct_perm (heapNodes_perm_cons hperm others)
      (notMem_heapNodes (h.no_node slot) hslot)

/-- **A node is freed.** -/
theorem freed (h : HoldsNodes ofHeap others nodes' heap) (hperm : nodes'.Perm (slot :: nodes))
    (hslot : slot ∉ nodes) :
    HoldsNodes ofHeap others nodes (heap.replay (NodeBlocks.freed ofHeap slot)) := by
  refine ⟨h.no_node, ?_⟩
  cases ofHeap with
  | false => exact h.holds
  | true =>
    exact h.holds.destroy_perm (heapNodes_perm_cons hperm others)
      (notMem_heapNodes (h.no_node slot) hslot)

end HoldsNodes

/-- The events `events` of a call on the nodes `nodes` fit what it makes of them. -/
def Step (ofHeap : Bool) (nodes : List ℕ) (shape : List ℕ → Prop)
    (events : List (Event (Block NodeArea))) : Prop :=
  ∃ nodes', shape nodes' ∧ ∀ others heap, HoldsNodes ofHeap others nodes heap →
    HoldsNodes ofHeap others nodes' (heap.replay events)

variable {shape : List ℕ → Prop}

namespace Step

/-- The nodes are as they were. -/
theorem keep (hshape : shape nodes) : Step ofHeap nodes shape [] :=
  ⟨nodes, hshape, fun _ _ h => h⟩

/-- A node was added. -/
theorem obtain (hshape : shape (as ++ slot :: bs)) (hslot : slot ∉ as ++ bs) :
    Step ofHeap (as ++ bs) shape (granted ofHeap slot) :=
  ⟨_, hshape, fun _ _ h => h.granted List.perm_middle hslot⟩

/-- A node was obtained and freed. -/
theorem giveBack (hshape : shape nodes) (hslot : slot ∉ nodes) :
    Step ofHeap nodes shape (granted ofHeap slot ++ freed ofHeap slot) := by
  refine ⟨nodes, hshape, fun others heap h => ?_⟩
  rw [Ledger.replay_append]
  exact (h.granted (List.Perm.refl _) hslot).freed (List.Perm.refl _) hslot

/-- A node was taken out. -/
theorem free (hshape : shape (as ++ bs)) (hslot : slot ∉ as ++ bs) :
    Step ofHeap (as ++ slot :: bs) shape (freed ofHeap slot) :=
  ⟨_, hshape, fun _ _ h => h.freed List.perm_middle hslot⟩

end Step

/-- Some nodes are freed one after the other. -/
theorem HoldsNodes.freedAll (h : HoldsNodes ofHeap others (nodes ++ bs) heap)
    (hnodup : (nodes ++ bs).Nodup) :
    HoldsNodes ofHeap others bs (heap.replay (nodes.flatMap (NodeBlocks.freed ofHeap))) := by
  induction nodes generalizing heap with
  | nil => exact h
  | cons n nodes ih =>
    obtain ⟨hn, hnodup⟩ := List.nodup_cons.mp hnodup
    rw [List.flatMap_cons, Ledger.replay_append]
    exact ih (h.freed (List.Perm.refl _) hn) hnodup

/-- The events of a removal that found the node `slot`. -/
def taken (ofHeap : Bool) (slot : ℕ) (st : Status) : List (Event (Block NodeArea)) :=
  if st ≠ .ok then [] else freed ofHeap slot

/-- **A removal** frees the node that it takes out. -/
theorem Step.takes {V : Type*} {policy : ElementPolicy V} {needsDestroy : Bool} {v v' : NodeView V}
    {out : Option V} {result : Status × Option V}
    (h : NodeView.Takes policy needsDestroy v v' as bs slot out result)
    (hnodup : (as ++ slot :: bs).Nodup) :
    Step ofHeap (as ++ slot :: bs) v'.shape (taken ofHeap slot result.1) := by
  unfold taken
  rcases h with ⟨hst, hkept, -⟩ | ⟨hok, -, hremoved⟩
  · rw [if_pos hst]
    exact .keep hkept.shape
  · rw [if_neg (not_not.mpr hok)]
    exact .free hremoved.shape (List.nodup_cons.mp (List.nodup_middle.mp hnodup)).1

end NodeBlocks

open NodeBlocks

/-- A core of nodes with what it does to the heap. -/
structure NodeCore (σ ι ο : Type*) where
  call : σ → ι → ο × σ
  /-- The events of a call. -/
  blocks : σ → ι → List (Event (Block NodeArea))
  /-- `clear`; `none` if it does not return. -/
  clear : σ → Option σ
  /-- The events of `clear`. -/
  clearBlocks : σ → List (Event (Block NodeArea))

namespace NodeCore

variable {σ ι ο : Type*}

/-- What is known of a core. The shape lists the nodes of a state. -/
structure Sound (core : NodeCore σ ι ο) (ofHeap : Bool) (shape : σ → List ℕ → Prop) : Prop where
  /-- The events of every call fit. -/
  call : ∀ {s nodes} (c : ι), shape s nodes →
    Step ofHeap nodes (shape (core.call s c).2) (core.blocks s c)
  /-- `clear` returns, and frees the nodes. -/
  clear : ∀ {s nodes}, shape s nodes → ∃ t, core.clear s = some t ∧
    ∀ others heap, HoldsNodes ofHeap others nodes heap →
      HoldsNodes ofHeap others [] (heap.replay (core.clearBlocks s))

/-- The calls of a core, with the heap. -/
abbrev run (core : NodeCore σ ι ο) (s : σ × Ledger (Block NodeArea)) (calls : List ι) :
    σ × Ledger (Block NodeArea) :=
  Mealy.final (Mealy.tracked core.call core.blocks) s calls

/-- **Run rule**: the heap goes on holding the nodes, whatever the calls. -/
theorem Sound.run {core : NodeCore σ ι ο} {ofHeap : Bool} {shape : σ → List ℕ → Prop}
    (h : core.Sound ofHeap shape) {others : List (Block NodeArea)}
    {s : σ × Ledger (Block NodeArea)}
    (hs : ∃ nodes, shape s.1 nodes ∧ HoldsNodes ofHeap others nodes s.2) (calls : List ι) :
    ∃ nodes, shape (core.run s calls).1 nodes ∧ HoldsNodes ofHeap others nodes
      (core.run s calls).2 := by
  have hcalls : Mealy.EveryCall (Mealy.tracked core.call core.blocks) (fun _ _ => True) s calls :=
    Mealy.everyCall_true s calls
  refine hcalls.final_invariant (fun s => ∃ nodes, shape s.1 nodes ∧
    HoldsNodes ofHeap others nodes s.2) ?_ hs
  rintro s c ⟨nodes, hshape, hholds⟩ -
  obtain ⟨nodes', hshape', hstep⟩ := h.call c hshape
  exact ⟨nodes', hshape', hstep _ _ hholds⟩

end NodeCore

end Memkit
