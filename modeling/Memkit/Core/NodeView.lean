import Memkit.Core.ElementCells
import Memkit.Core.NodePool

/-! # What operations do to a list of nodes

The lists differ in their links, but their operations do the same to the nodes in order and to the
elements in them: they leave them as they were, add a node or take one out. A view keeps what these
statements need of a container.

* **`NodeView`** — the node lists that the links spell out, and the elements.
* **`Kept`, `Added`, `Removed`** — what an operation did.
* **`Inserts`, `Takes`** — what an insertion and a removal may do, whatever the copies return.
* **`Balanced`** — the objects are those of the nodes. -/

namespace Memkit

variable {V : Type*}

/-- What is seen of a container of nodes. -/
structure NodeView (V : Type*) where
  /-- The links are sound and spell out these nodes. -/
  shape : List ℕ → Prop
  cells : Cells ℕ V

namespace NodeView

/-- The slots that hold an object are those of the nodes. -/
def Holding (v : NodeView V) (nodes : List ℕ) : Prop := v.cells.ledger.Holds {i | i ∈ nodes}

/-- The sequence is as it was. -/
structure Kept (v v' : NodeView V) (nodes : List ℕ) : Prop where
  shape : v'.shape nodes
  contents : ∀ i ∈ nodes, v'.cells.contents i = v.cells.contents i
  holding : v.Holding nodes → v'.Holding nodes

/-- A node with an element was added between `as` and `bs`. -/
structure Added (policy : ElementPolicy V) (v v' : NodeView V) (value : V) (as bs : List ℕ)
    (slot : ℕ) : Prop where
  shape : v'.shape (as ++ slot :: bs)
  contents : ∀ i ∈ as ++ bs, v'.cells.contents i = v.cells.contents i
  value : policy.Faithful → v'.cells.contents slot = value
  holding : v.Holding (as ++ bs) → v'.Holding (as ++ slot :: bs)

/-- The node between `as` and `bs` was taken out. -/
structure Removed (policy : ElementPolicy V) (needsDestroy : Bool) (v v' : NodeView V)
    (as bs : List ℕ) (slot : ℕ) (out : Option V) : Prop where
  shape : v'.shape (as ++ bs)
  contents : ∀ i ∈ as ++ bs, v'.cells.contents i = v.cells.contents i
  /-- The object is destroyed, but not if it was handed out. -/
  holding : needsDestroy = true → ¬ v.cells.HandedOut policy slot out →
    v.Holding (as ++ slot :: bs) → v'.Holding (as ++ bs)

/-- An insertion between `as` and `bs` that returned `st` changed nothing, or added a node. With
copies that do not fail it fails only if the pool is full. -/
def Inserts (policy : ElementPolicy V) (src : NodeSource) (v v' : NodeView V) (value : V)
    (as bs : List ℕ) (st : Status) : Prop :=
  (st ≠ .ok ∧ Kept v v' (as ++ bs) ∧
    (policy.NonFailing → src.fixedPool = true →
      st = .full ∧ (as ++ bs).length = src.capacity)) ∨
  ∃ slot, st = .ok ∧ Added policy v v' value as bs slot ∧
    (src.fixedPool = true → (as ++ bs).length < src.capacity)

/-- A removal of the node between `as` and `bs` changed nothing, or took the node out. -/
def Takes (policy : ElementPolicy V) (needsDestroy : Bool) (v v' : NodeView V) (as bs : List ℕ)
    (slot : ℕ) (out : Option V) (result : Status × Option V) : Prop :=
  (result.1 ≠ .ok ∧ Kept v v' (as ++ slot :: bs) ∧ ¬ policy.NonFailing) ∨
  (result.1 = .ok ∧
    (policy.Faithful → result.2 = out.map fun _ => v.cells.contents slot) ∧
    Removed policy needsDestroy v v' as bs slot out)

variable {v v' : NodeView V} {as bs nodes : List ℕ} {slot : ℕ}

/-- The slots that hold an object are those of the nodes that the links spell out. -/
def Balanced (v : NodeView V) : Prop := ∃ nodes, v.shape nodes ∧ v.Holding nodes

/-- Destroying the element of a node that is taken out. -/
theorem Holding.destroy (h : v.Holding (as ++ slot :: bs)) (hslot : slot ∉ as ++ bs)
    (policy : ElementPolicy V) : (v.cells.destroy policy slot).ledger.Holds {i | i ∈ as ++ bs} :=
  Ledger.Holds.destroy_mem h hslot

/-- An insertion keeps the objects those of the nodes. -/
theorem Inserts.balanced {policy : ElementPolicy V} {src : NodeSource} {value : V} {st : Status}
    (h : Inserts policy src v v' value as bs st) (hholding : v.Holding (as ++ bs)) :
    v'.Balanced := by
  rcases h with ⟨-, hkept, -⟩ | ⟨slot, -, hadded, -⟩
  · exact ⟨_, hkept.shape, hkept.holding hholding⟩
  · exact ⟨_, hadded.shape, hadded.holding hholding⟩

/-- So does a removal that hands no element out. -/
theorem Takes.balanced {policy : ElementPolicy V} {needsDestroy : Bool} {out : Option V}
    {result : Status × Option V} (h : Takes policy needsDestroy v v' as bs slot out result)
    (hneeds : needsDestroy = true) (hout : ¬ v.cells.HandedOut policy slot out)
    (hholding : v.Holding (as ++ slot :: bs)) : v'.Balanced := by
  rcases h with ⟨-, hkept, -⟩ | ⟨-, -, hremoved⟩
  · exact ⟨_, hkept.shape, hkept.holding hholding⟩
  · exact ⟨_, hremoved.shape, hremoved.holding hneeds hout hholding⟩

end NodeView

end Memkit
