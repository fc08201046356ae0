import Memkit.Moves.MovedLists
import Memkit.Sequences.SequenceLedger

/-! # Moved-from containers

`Ring`, `PQueue`, `DList` and `Vector` after a move. The source is not reset: it still counts the
elements of the destination, over the same storage.

* **`safe_if_idle`** — the destination is undisturbed in every run in which the source is left alone,
  but for calls that touch no element and no storage.
* **`moved_from_not_inert`** — runs of the four classes in which it is disturbed. -/

namespace Memkit

variable {w : ℕ} {V : Type*}

/-- **When moved-from containers are inert**: after a move construction or assignment from any state,
the destination answers as if the source were not used again, and nothing is released by both
destructors, in every run in which each call on the source, its destruction included, is idle: while
it points to the storage of the destination it inserts, moves and destroys no element there and does
not grow. -/
theorem safe_if_idle (ring : RingConfig w V) (queue : PQueueClass w V) (list : DListConfig V)
    (vector : VectorConfig w V) (source dest : ℕ) (others : ℕ → Option ℕ) :
    Twin.SafeWhen (Ring.objectClass ring) (Ring.Idle ring) ∧
      Twin.SafeWhen (PQueueObject.objectClass queue) (PQueueObject.Idle queue) ∧
      Twin.SafeWhen (DListObject.objectClass list) (DListObject.Idle list) ∧
      Twin.SafeWhen (VectorObject.objectClass vector source dest others)
        (VectorObject.Idle vector source dest others) :=
  ⟨Ring.safeWhen_idle ring, PQueueObject.safeWhen_idle queue, DListObject.safeWhen_idle list,
    VectorObject.safeWhen_idle vector source dest others⟩

/-! ## Runs -/

/-- Queues without a heap. -/
def quadQueueClass : PQueueClass 16 ℕ := ⟨quadQueue, false, fun _ _ => false⟩

/-- Vectors without allocators. -/
def quadVector : VectorConfig 16 ℕ where
  policy := .bytewise ℕ
  typed := true
  needsDestroy := false
  elemSize := 4
  allowHeap := false
  grants _ _ := false
  arenaAllocate _ _ _ := .error .oom
  arena_refuses := by
    rintro _ _ _ _ ⟨⟩
    decide

/-- A ring over four slots after a push. -/
def ringOfOne : Ring 16 × ObjectMemory (ℕ × ℕ) ℕ :=
  ((Ring.objectClass quadRing).call .source () ⟨⟨0, 4, 0, 0, 0⟩, 0, false⟩ ⟨fun _ => 0, 0⟩
    (.pushBack 1)).2

/-- A move of this ring. -/
def movedRing : Twin (Ring 16) (ObjectMemory (ℕ × ℕ) ℕ) Unit (Released (ℕ × ℕ) ℕ) :=
  Twin.moveConstruct (Ring.objectClass quadRing) ringOfOne.1 ringOfOne.2

/-- Calls of the source that read, and its destruction after its only element was popped. -/
def idleCalls : List (TwinCall (Ring.Call 16 ℕ) Unit) :=
  [.dest (.pushBack 2), .source (.peekFront 0), .source (.popFront (some 0)), .destroy (),
    .dest (.dataAt 1)]

theorem idle_idleCalls :
    Mealy.EveryCall (Twin.step (Ring.objectClass quadRing)) (Ring.Idle quadRing) movedRing
      idleCalls := by
  refine ⟨trivial, fun _ _ => trivial, fun _ _ => .inr rfl, ?_, trivial, trivial⟩
  rintro _ ⟨⟩
  exact .inl (by decide +kernel)

theorem undisturbed_idleCalls :
    Twin.Undisturbed (Ring.objectClass quadRing) movedRing idleCalls :=
  ((safe_if_idle quadRing quadQueueClass quadDList quadVector 0 1 fun _ => none).1
    ringOfOne.1 ringOfOne.2 idleCalls).1 idle_idleCalls

/-- A queue over four slots after a push. -/
def queueOfOne : PQueueObject 16 × ObjectMemory (BlockPtr × ℕ) ℕ :=
  ((PQueueObject.objectClass quadQueueClass).call .source () ⟨.given 0, 4, 0, false, 0, false⟩
    ⟨fun _ => 0, 0⟩ (.push 1)).2

/-- A move of this queue. -/
def movedQueue :
    Twin (PQueueObject 16) (ObjectMemory (BlockPtr × ℕ) ℕ) Unit (Released (BlockPtr × ℕ) BlockPtr) :=
  Twin.moveConstruct (PQueueObject.objectClass quadQueueClass) queueOfOne.1 queueOfOne.2

/-- A list over four nodes after a push. -/
def listOfOne : DListObject × NodeMemory ℕ :=
  let start := DListObject.after ⟨none, none, none, 0, 0, false⟩ quadDListStart
  ((DListObject.objectClass quadDList).call .source () start.1 start.2 (.list (.pushBack 1))).2

/-- A move of this list. -/
def movedList : Twin DListObject (NodeMemory ℕ) Unit (Released ℕ (Option ℕ)) :=
  Twin.moveConstruct (DListObject.objectClass quadDList) listOfOne.1 listOfOne.2

/-- Vectors at the addresses 0 and 1. -/
def quadVectors : ObjectClass (VectorObject 16) (VectorMemory ℕ) (Option ℕ) (VectorObject.Use 16 ℕ)
    (VectorObject.Shown 16 ℕ) (Released (BlockPtr × ℕ) BlockPtr) :=
  VectorObject.objectClass quadVector 0 1 fun _ => none

/-- A vector over four slots after a push. -/
def vectorOfOne : VectorObject 16 × VectorMemory ℕ :=
  (quadVectors.call .source none ⟨⟨.given 0, 4, 0, false, .external, none⟩, none⟩
    (.start fun _ => 0) (.pushBack 1)).2

/-- A move of this vector. -/
def movedVector :
    Twin (VectorObject 16) (VectorMemory ℕ) (Option ℕ) (Released (BlockPtr × ℕ) BlockPtr) :=
  Twin.moveConstruct quadVectors vectorOfOne.1 vectorOfOne.2

/-- **Moved-from containers are not inert.** A push to the source overwrites an element of the
destination; a list that is cleared takes the nodes of the destination with it; and the destructors of
both lists destroy the same element. -/
theorem moved_from_not_inert :
    ¬ Twin.Undisturbed (Ring.objectClass quadRing) movedRing
        [.dest (.pushBack 2), .source (.pushBack 7), .dest (.dataAt 1)] ∧
      ¬ Twin.Undisturbed (PQueueObject.objectClass quadQueueClass) movedQueue
        [.dest (.push 2), .source (.push 0), .dest (.peek 9)] ∧
      ¬ Twin.Undisturbed (DListObject.objectClass quadDList) movedList
        [.source (.list .clear), .dest (.list (.forEach fun _ => .ok))] ∧
      ¬ Twin.Undisturbed quadVectors movedVector
        [.dest (.pushBack 2), .source (.pushBack 7), .dest .elements] ∧
      ¬ Twin.Undisturbed (DListObject.objectClass quadDList) movedList [.destroy ()] := by
  refine ⟨fun h => absurd h.1 (by decide +kernel), fun h => absurd h.1 (by decide +kernel),
    fun h => absurd h.1 (by decide +kernel), fun h => absurd h.1 (by decide +kernel), fun h => ?_⟩
  have hdisjoint : List.Disjoint _ _ := h.2
  exact hdisjoint (a := .element 3) (by decide +kernel) (by decide +kernel)

end Memkit
