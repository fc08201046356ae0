import Memkit.Sequences.DListOperations
import Memkit.Sequences.NodeSequence
import Memkit.Sequences.SListOperations

/-! # The objects of the lists

Every node of `list_core` and `dlist_core` is constructed only when it holds no object and destroyed
only when it holds one, as long as no removal hands an element out by a copy.

* **`removal`** — the node that a call takes out.
* **`Clean`** — the calls that hand nothing out.
* **`balanced_call`, `clear_balanced`** — what they keep, and what a clear leaves. -/

namespace Memkit

open LinkedChain NodeView

variable {V : Type*} {nodes free : List ℕ}

namespace NodeView

variable {v v' : NodeView V} {policy : ElementPolicy V}

/-- **A removal at an index** that hands nothing out keeps the objects those of the nodes. -/
theorem balanced_take {needsDestroy : Bool} {index : ℕ} {out : Option V}
    (result : Status × Option V) (hneeds : needsDestroy = true) (hshape : v.shape nodes)
    (hholding : v.Holding nodes)
    (hclean : ∀ slot, nodes[index]? = some slot → ¬ v.cells.HandedOut policy slot out)
    (hnone : nodes[index]? = none → v' = v)
    (hsome : ∀ as bs slot, nodes = as ++ slot :: bs → as.length = index →
      Takes policy needsDestroy v v' as bs slot out result) : v'.Balanced := by
  by_cases hindex : index < nodes.length
  · obtain ⟨as, bs, hsplit, hlength⟩ := exists_split_getElem nodes hindex
    have hout := hclean _ (List.getElem?_eq_getElem hindex)
    exact (hsome as bs _ hsplit hlength).balanced hneeds hout (hsplit ▸ hholding)
  · rw [hnone (List.getElem?_eq_none (by omega))]
    exact ⟨nodes, hshape, hholding⟩

end NodeView

/-! ## The doubly linked list -/

namespace DList

variable {cfg : DListConfig V} {s : DList V}

/-- The node that a call takes out, and where its element is to be copied. -/
def removal (cfg : DListConfig V) (s : DList V) : Call V → Option (ℕ × Option V)
  | .popFront out => s.head.map (·, out)
  | .popBack out => s.tail.map (·, out)
  | .removeAt index out => (nodeAt s index).map (·, out)
  | .removeFirst pred out =>
    ((findLoop pred s.cells.contents s.next (rounds cfg s) 0 s.head).join.bind (nodeAt s)).map (·, out)
  | _ => none

/-- A call that takes a node out does not hand its element out. -/
def Clean (cfg : DListConfig V) (s : DList V) (c : Call V) : Prop :=
  ∀ slot out, removal cfg s c = some (slot, out) → ¬ s.cells.HandedOut cfg.policy slot out

instance (cfg : DListConfig V) (s : DList V) (c : Call V) : Decidable (Clean cfg s c) :=
  decidable_of_iff (∀ r ∈ removal cfg s c, ¬ s.cells.HandedOut cfg.policy r.1 r.2) Prod.forall

theorem Inv.balanced_popFound (h : Inv cfg s nodes free) (hneeds : cfg.needsDestroy = true)
    (hholding : (view cfg s).Holding nodes) (index : ℕ) (missing : Status) (out : Option V)
    (hclean : ∀ slot, nodes[index]? = some slot → ¬ s.cells.HandedOut cfg.policy slot out) :
    (view cfg (popFound cfg s nodes[index]? missing out).2).Balanced := by
  refine balanced_take (popFound cfg s nodes[index]? missing out).1 hneeds
    (show (view cfg s).shape nodes from ⟨free, h⟩) hholding hclean ?_ ?_
  · intro hnone
    rw [hnone]
    rfl
  · intro as bs slot hsplit hindex
    subst hsplit hindex
    rw [List.getElem?_append_right le_rfl, Nat.sub_self, List.getElem?_cons_zero]
    exact popNode_cases h out

/-- **`clear`** destroys all elements. -/
theorem clear_balanced (h : (view cfg s).Balanced) (hneeds : cfg.needsDestroy = true) :
    (view cfg (DList.call cfg s .clear).2).Balanced ∧
      (DList.call cfg s .clear).2.cells.ledger.Holds ∅ := by
  obtain ⟨nodes, ⟨free, hinv⟩, hholding⟩ := h
  obtain ⟨t, free', heq, hinv', hcleared⟩ := clear_cases hinv
  have hempty : {i : ℕ | i ∈ ([] : List ℕ)} = ∅ := by simp
  have hholds := hcleared hneeds hholding
  simp only [DList.call, heq]
  refine ⟨⟨[], ⟨free', hinv'⟩, hholds⟩, ?_⟩
  rw [← hempty]
  exact hholds

/-- **Every clean call** on the doubly linked list keeps the objects those of the nodes. -/
theorem balanced_call (h : (view cfg s).Balanced) (hneeds : cfg.needsDestroy = true) (c : Call V)
    (hclean : Clean cfg s c) : (view cfg (DList.call cfg s c).2).Balanced := by
  -- a call that constructs and destroys nothing keeps the balance it had
  have hself := h
  obtain ⟨nodes, ⟨free, hinv⟩, hholding⟩ := h
  cases c with
  | pushFront value => exact (insertFront_cases hinv value).balanced hholding
  | pushBack value =>
    rw [← List.append_nil nodes] at hholding
    exact (insertBack_cases hinv value).balanced hholding
  | insertAt index value =>
    cases value with
    | none => exact hself
    | some value =>
      show (view cfg (insertAt cfg s index (some value)).2).Balanced
      by_cases hindex : nodes.length < index
      · rw [insertAt, if_pos (hinv.size_eq.symm ▸ hindex)]
        exact hself
      · rw [← List.take_append_drop index nodes] at hholding
        exact (insertAt_cases hinv value (not_lt.mp hindex)).balanced hholding
  | popFront out =>
    show (view cfg (answerRemoval s (popFront cfg s out)).2).Balanced
    rw [popFront_eq hinv, List.head?_eq_getElem?]
    -- a removal is clean if the copy of its node to the caller does not fail
    refine hinv.balanced_popFound hneeds hholding 0 .empty out fun slot hslot => hclean slot out ?_
    show s.head.map (·, out) = _
    rw [hinv.shape.chain.head_eq, List.head?_eq_getElem?, hslot]
    rfl
  | popBack out =>
    show (view cfg (answerRemoval s (popBack cfg s out)).2).Balanced
    rw [popBack_eq hinv, List.getLast?_eq_getElem?]
    refine hinv.balanced_popFound hneeds hholding _ .empty out fun slot hslot => hclean slot out ?_
    show s.tail.map (·, out) = _
    rw [hinv.shape.chain.tail_eq, List.getLast?_eq_getElem?, hslot]
    rfl
  | removeAt index out =>
    show (view cfg (answerRemoval s (removeAt cfg s index out)).2).Balanced
    rw [removeAt_eq hinv]
    refine hinv.balanced_popFound hneeds hholding _ .invalid out fun slot hslot => hclean slot out ?_
    show (nodeAt s index).map (·, out) = _
    rw [nodeAt_eq hinv, hslot]
    rfl
  | removeFirst pred out =>
    -- the node found is removed by its index, as in `remove_at`
    have hsearch : findLoop pred s.cells.contents s.next (rounds cfg s) 0 s.head = _ :=
      findLoop_zero pred hinv.shape.chain.forward hinv.rounds_le
    show (view cfg (answerRemoval s (removeFirst cfg s pred out)).2).Balanced
    rw [removeFirst, hsearch]
    cases hfind : (nodes.map s.cells.contents).findIdx? pred with
    | none => exact hself
    | some index =>
      simp only [removeAt_eq hinv]
      refine hinv.balanced_popFound hneeds hholding _ .invalid out
        fun slot hslot => hclean slot out ?_
      show ((findLoop pred s.cells.contents s.next (rounds cfg s) 0 s.head).join.bind
        (nodeAt s)).map (·, out) = _
      rw [hsearch, hfind]
      show (nodeAt s index).map (·, out) = _
      rw [nodeAt_eq hinv, hslot]
      rfl
  | clear => exact (clear_balanced hself hneeds).1
  | peekFront out => exact hself
  | peekBack out => exact hself
  | peekAt index out => exact hself
  | forEach visit => exact hself
  | forEachReverse visit => exact hself

theorem balanced_init (cfg : DListConfig V) (links : ℕ → Option ℕ) (memory : ℕ → V) :
    (view cfg (init cfg links memory)).Balanced := by
  have hempty : {i : ℕ | i ∈ ([] : List ℕ)} = ∅ := by simp
  refine ⟨[], inv_init cfg links memory, ?_⟩
  show (Ledger.empty ℕ).Holds {i | i ∈ []}
  rw [hempty]
  exact Ledger.holds_empty

end DList

/-! ## The singly linked list -/

namespace SList

variable {cfg : SListConfig V} {s : SList V}

/-- The node that a call takes out, and where its element is to be copied. -/
def removal (cfg : SListConfig V) (s : SList V) : Call V → Option (ℕ × Option V)
  | .popFront out => s.head.map (·, out)
  | .popBack out => s.tail.map (·, out)
  | .removeAt index out => (nodeAt s index).1.map (·, out)
  | .removeFirst pred out =>
    ((findLoop pred s.cells.contents s.next (rounds cfg s) 0 s.head).join.bind
      fun index => (nodeAt s index).1).map (·, out)
  | _ => none

/-- A call that takes a node out does not hand its element out. -/
def Clean (cfg : SListConfig V) (s : SList V) (c : Call V) : Prop :=
  ∀ slot out, removal cfg s c = some (slot, out) → ¬ s.cells.HandedOut cfg.policy slot out

instance (cfg : SListConfig V) (s : SList V) (c : Call V) : Decidable (Clean cfg s c) :=
  decidable_of_iff (∀ r ∈ removal cfg s c, ¬ s.cells.HandedOut cfg.policy r.1 r.2) Prod.forall

/-- A removal at an index that hands nothing out. -/
theorem TakesAt.balanced {index : ℕ} {out : Option V} {r : (Status × Option V) × SList V}
    (h : TakesAt cfg s nodes index out r) (hneeds : cfg.needsDestroy = true)
    (hholding : (view cfg s).Holding nodes)
    (hclean : ∀ slot, nodes[index]? = some slot → ¬ s.cells.HandedOut cfg.policy slot out) :
    (view cfg r.2).Balanced := by
  obtain ⟨as, bs, slot, rfl, rfl, htakes⟩ := h
  refine htakes.balanced hneeds (hclean slot ?_) hholding
  rw [List.getElem?_append_right le_rfl, Nat.sub_self, List.getElem?_cons_zero]

/-- **`remove_at`** that hands nothing out. -/
theorem Inv.balanced_removeAt (h : Inv cfg s nodes free) (hneeds : cfg.needsDestroy = true)
    (hholding : (view cfg s).Holding nodes) (index : ℕ) (out : Option V)
    (hclean : ∀ slot, (nodeAt s index).1 = some slot → ¬ s.cells.HandedOut cfg.policy slot out) :
    (view cfg (answerRemoval s (removeAt cfg s index out)).2).Balanced := by
  by_cases hindex : index < nodes.length
  · obtain ⟨r, heq, htakes⟩ := removeAt_cases h hindex out
    rw [heq]
    refine htakes.balanced hneeds hholding fun slot hslot => hclean slot ?_
    rw [nodeAt_eq h hindex.le, hslot]
  · have hout : s.size ≤ index := by
      rw [h.size_eq]
      exact not_lt.mp hindex
    rw [removeAt, if_pos hout]
    exact ⟨nodes, ⟨free, h⟩, hholding⟩

/-- **`clear`** destroys all elements. -/
theorem clear_balanced (h : (view cfg s).Balanced) (hneeds : cfg.needsDestroy = true) :
    (view cfg (SList.call cfg s .clear).2).Balanced ∧
      (SList.call cfg s .clear).2.cells.ledger.Holds ∅ := by
  obtain ⟨nodes, ⟨free, hinv⟩, hholding⟩ := h
  obtain ⟨t, free', heq, hinv', hcleared⟩ := clear_cases hinv
  have hempty : {i : ℕ | i ∈ ([] : List ℕ)} = ∅ := by simp
  have hholds := hcleared hneeds hholding
  simp only [SList.call, heq]
  refine ⟨⟨[], ⟨free', hinv'⟩, hholds⟩, ?_⟩
  rw [← hempty]
  exact hholds

/-- **Every clean call** on the singly linked list keeps the objects those of the nodes. -/
theorem balanced_call (h : (view cfg s).Balanced) (hneeds : cfg.needsDestroy = true) (c : Call V)
    (hclean : Clean cfg s c) : (view cfg (SList.call cfg s c).2).Balanced := by
  -- a call that constructs and destroys nothing keeps the balance it had
  have hself := h
  obtain ⟨nodes, ⟨free, hinv⟩, hholding⟩ := h
  cases c with
  | pushFront value => exact (insertFront_cases hinv value).balanced hholding
  | pushBack value =>
    rw [← List.append_nil nodes] at hholding
    exact (insertBack_cases hinv value).balanced hholding
  | insertAt index value =>
    cases value with
    | none => exact hself
    | some value =>
      show (view cfg (insertAt cfg s index (some value)).2).Balanced
      by_cases hindex : nodes.length < index
      · rw [insertAt, if_pos (hinv.size_eq.symm ▸ hindex)]
        exact hself
      · rw [← List.take_append_drop index nodes] at hholding
        exact (insertAt_cases hinv value (not_lt.mp hindex)).balanced hholding
  | popFront out =>
    show (view cfg (answerRemoval s (popFront cfg s out)).2).Balanced
    -- an empty list is left alone; otherwise the copy to the caller has to be clean
    rcases popFront_cases hinv out with ⟨-, heq⟩ | ⟨r, heq, htakes⟩
    · rw [heq]
      exact hself
    · rw [heq]
      refine htakes.balanced hneeds hholding fun slot hslot => hclean slot out ?_
      show s.head.map (·, out) = _
      rw [hinv.shape.chain.head_eq, List.head?_eq_getElem?, hslot]
      rfl
  | popBack out =>
    show (view cfg (popBack cfg s out).2).Balanced
    rcases popBack_cases hinv out with ⟨-, heq⟩ | htakes
    · rw [heq]
      exact hself
    · refine htakes.balanced hneeds hholding fun slot hslot => hclean slot out ?_
      show s.tail.map (·, out) = _
      rw [hinv.shape.chain.tail_eq, List.getLast?_eq_getElem?, hslot]
      rfl
  | removeAt index out =>
    refine hinv.balanced_removeAt hneeds hholding index out fun slot hslot => hclean slot out ?_
    show (nodeAt s index).1.map (·, out) = _
    rw [hslot]
    rfl
  | removeFirst pred out =>
    -- the node found is removed by its index, as in `remove_at`
    have hsearch : findLoop pred s.cells.contents s.next (rounds cfg s) 0 s.head = _ :=
      findLoop_zero pred hinv.shape.chain.forward hinv.rounds_le
    show (view cfg (answerRemoval s (removeFirst cfg s pred out)).2).Balanced
    rw [removeFirst, hsearch]
    cases hfind : (nodes.map s.cells.contents).findIdx? pred with
    | none => exact hself
    | some index =>
      refine hinv.balanced_removeAt hneeds hholding index out fun slot hslot => hclean slot out ?_
      show ((findLoop pred s.cells.contents s.next (rounds cfg s) 0 s.head).join.bind
        fun index => (nodeAt s index).1).map (·, out) = _
      rw [hsearch, hfind]
      show (nodeAt s index).1.map (·, out) = _
      rw [hslot]
      rfl
  | clear => exact (clear_balanced hself hneeds).1
  | peekFront out => exact hself
  | peekBack out => exact hself
  | peekAt index out => exact hself
  | forEach visit => exact hself

theorem balanced_init (cfg : SListConfig V) (links : ℕ → Option ℕ) (memory : ℕ → V) :
    (view cfg (init cfg links memory)).Balanced := by
  obtain ⟨free, hinv⟩ := inv_init cfg links memory
  have hempty : {i : ℕ | i ∈ ([] : List ℕ)} = ∅ := by simp
  refine ⟨[], ⟨free, hinv⟩, ?_⟩
  show (Ledger.empty ℕ).Holds {i | i ∈ []}
  rw [hempty]
  exact Ledger.holds_empty

end SList

end Memkit
