import Memkit.Sequences.ListLedger
import Memkit.Sequences.PQueueLedger
import Memkit.Sequences.RingBufferLedger

/-! # The objects of the sequence containers

`ring_buffer_core`, `list_core`, `dlist_core` and `pqueue_core` with a `destroy_fn_`: what is
constructed in their slots, and what is destroyed.

* **`settled_of_clean`** — all four keep the objects in order as long as they overwrite no element
  in place and hand none out.
* **`unsettled`** — runs in which they do not. -/

namespace Memkit

variable {w : ℕ} {V : Type*}

namespace RingBuffer

theorem settledRuns (cfg : RingConfig w V) (hneeds : cfg.needsDestroy = true)
    (memory : ℕ × ℕ → V) :
    SettledRuns (call cfg) (Clean cfg) (·.cells.ledger) .clear (init cfg memory) :=
  .of_invariant Sound (fun _ c h hclean => h.call hneeds c hclean) (sound_init cfg memory)
    (fun _ h => h.balanced.no_fault) fun _ h => (h.clear hneeds).2

end RingBuffer

namespace SList

theorem settledRuns (cfg : SListConfig V) (hneeds : cfg.needsDestroy = true)
    (links : ℕ → Option ℕ) (memory : ℕ → V) :
    SettledRuns (SList.call cfg) (Clean cfg) (·.cells.ledger) .clear (init cfg links memory) :=
  .of_invariant (fun s => (view cfg s).Balanced) (fun _ c h hclean => balanced_call h hneeds c hclean)
    (balanced_init cfg links memory) (fun _ ⟨_, _, hholding⟩ => hholding.no_fault)
    fun _ h => (clear_balanced h hneeds).2

end SList

namespace DList

theorem settledRuns (cfg : DListConfig V) (hneeds : cfg.needsDestroy = true)
    (links : ℕ → Option ℕ) (memory : ℕ → V) :
    SettledRuns (DList.call cfg) (Clean cfg) (·.cells.ledger) .clear (init cfg links memory) :=
  .of_invariant (fun s => (view cfg s).Balanced) (fun _ c h hclean => balanced_call h hneeds c hclean)
    (balanced_init cfg links memory) (fun _ ⟨_, _, hholding⟩ => hholding.no_fault)
    fun _ h => (clear_balanced h hneeds).2

end DList

namespace PQueue

theorem settledRuns (cfg : PQueueConfig w V) (htyped : cfg.typed = false)
    (hneeds : cfg.needsDestroy = true) (memory : ℕ → V) :
    SettledRuns (call cfg) (Clean cfg) (·.cells.ledger) .clear (init memory) :=
  .of_invariant Balanced (fun _ c h hclean => h.call htyped hneeds c hclean) (balanced_init memory)
    (fun _ h => h.no_fault) fun _ h => h.clear hneeds

end PQueue

/-- **The objects are in order** in all runs of the four containers whose calls are clean. -/
theorem settled_of_clean (ring : RingConfig w V) (list : SListConfig V) (dlist : DListConfig V)
    (pqueue : PQueueConfig w V) (hring : ring.needsDestroy = true)
    (hlist : list.needsDestroy = true) (hdlist : dlist.needsDestroy = true)
    (hpqueue : pqueue.needsDestroy = true) (htyped : pqueue.typed = false)
    (blocks : ℕ × ℕ → V) (links : ℕ → Option ℕ) (memory : ℕ → V) :
    SettledRuns (RingBuffer.call ring) (RingBuffer.Clean ring) (·.cells.ledger) .clear
        (RingBuffer.init ring blocks) ∧
      SettledRuns (SList.call list) (SList.Clean list) (·.cells.ledger) .clear
        (SList.init list links memory) ∧
      SettledRuns (DList.call dlist) (DList.Clean dlist) (·.cells.ledger) .clear
        (DList.init dlist links memory) ∧
      SettledRuns (PQueue.call pqueue) (PQueue.Clean pqueue) (·.cells.ledger) .clear
        (PQueue.init memory) :=
  ⟨RingBuffer.settledRuns ring hring blocks, SList.settledRuns list hlist links memory,
    DList.settledRuns dlist hdlist links memory, PQueue.settledRuns pqueue htyped hpqueue memory⟩

/-! ## Runs -/

/-- A ring of four slots with a `destroy_fn_`, which overwrites its oldest element when full. -/
def quadRing : RingConfig 16 ℕ where
  policy := .bytewise ℕ
  needsDestroy := true
  elemSize := 4
  growable := false
  overwriteOnFull := true
  allocate _ _ := .oom
  initialCapacity := 4
  elemSize_pos := by decide
  initialCapacity_pos := by decide
  storage_real := by decide
  allocate_real _ _ h := by cases h

/-- Lists over four nodes with a `destroy_fn_`. -/
def quadList : SListConfig ℕ := ⟨.bytewise ℕ, true, ⟨true, 4, fun _ => .unsupported⟩⟩

/-- Doubly linked lists over four nodes with a `destroy_fn_`. -/
def quadDList : DListConfig ℕ := ⟨.bytewise ℕ, true, ⟨true, 4, fun _ => .unsupported⟩⟩

/-- A queue of four elements with a `destroy_fn_`. -/
def quadQueue : PQueueConfig 16 ℕ where
  policy := .bytewise ℕ
  needsDestroy := true
  typed := false
  elemSize := 4
  lessThan a b := decide (a < b)
  capacity := 4
  growable := false
  scratch := 0
  capacity_lt := by decide

/-- The ring with its slots full of zeros. -/
def quadRingStart : RingBuffer 16 ℕ := .init quadRing fun _ => 0

/-- The list with its nodes full of zeros. -/
def quadListStart : SList ℕ := .init quadList (fun _ => none) fun _ => 0

/-- The doubly linked list with its nodes full of zeros. -/
def quadDListStart : DList ℕ := .init quadDList (fun _ => none) fun _ => 0

/-- The queue with its slots full of zeros. -/
def quadQueueStart : PQueue ℕ := .init fun _ => 0

/-- Pushes at both ends, an overwrite and removals without a pointer. -/
def quadRingCalls : List (RingBuffer.Call 16 ℕ) :=
  [.pushBack (some 1) false, .pushFront (some 2), .pushBack (some 3) false, .popFront none,
    .pushBack (some 4) false, .pushBack (some 5) false, .pushBack (some 6) false, .popBack none]

/-- Insertions and removals without a pointer. -/
def quadListCalls : List (SList.Call ℕ) :=
  [.pushBack 1, .pushFront 2, .insertAt 1 (some 3), .removeAt 1 none, .popBack none, .pushBack 4]

/-- The same for the doubly linked list. -/
def quadDListCalls : List (DList.Call ℕ) :=
  [.pushBack 1, .pushFront 2, .insertAt 1 (some 3), .removeAt 1 none, .popBack none, .pushBack 4]

/-- Pushes in order, and a pop that leaves the last element at the root. -/
def quadQueueCalls : List (PQueue.Call ℕ) :=
  [.push (some 1), .push (some 2), .pop none, .push (some 3), .pop none]

/-- The objects are in order in such runs. -/
theorem settled_of_clean_quad :
    Settles (RingBuffer.call quadRing) (·.cells.ledger) .clear quadRingStart quadRingCalls ∧
      Settles (SList.call quadList) (·.cells.ledger) .clear quadListStart quadListCalls ∧
      Settles (DList.call quadDList) (·.cells.ledger) .clear quadDListStart quadDListCalls ∧
      Settles (PQueue.call quadQueue) (·.cells.ledger) .clear quadQueueStart quadQueueCalls := by
  obtain ⟨hring, hlist, hdlist, hqueue⟩ := settled_of_clean quadRing quadList quadDList quadQueue
    rfl rfl rfl rfl rfl (fun _ => 0) (fun _ => none) fun _ => 0
  exact ⟨hring _ (by decide +kernel), hlist _ (by decide +kernel), hdlist _ (by decide +kernel),
    hqueue _ (by decide +kernel)⟩

/-- **The objects are not in order** once an element is handed out, replaced in place or swapped: a
copy is constructed over an object, or an object is dropped and never destroyed. -/
theorem unsettled :
    ¬ Settles (RingBuffer.call quadRing) (·.cells.ledger) .clear quadRingStart
        [.pushBack (some 5) false, .popFront (some 0)] ∧
      ¬ Settles (RingBuffer.call quadRing) (·.cells.ledger) .clear quadRingStart
        [.pushBack (some 5) false, .setAt 0 (some 6)] ∧
      ¬ Settles (SList.call quadList) (·.cells.ledger) .clear quadListStart
        [.pushBack 5, .popFront (some 0)] ∧
      ¬ Settles (DList.call quadDList) (·.cells.ledger) .clear quadDListStart
        [.pushBack 5, .popBack (some 0)] ∧
      ¬ Settles (PQueue.call quadQueue) (·.cells.ledger) .clear quadQueueStart
        [.push (some 2), .push (some 1)] := by
  decide +kernel

end Memkit
