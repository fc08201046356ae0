import Memkit.Sequences.DListShape

/-! # The operations of a doubly linked list

What each operation of `dlist_core` does to the nodes, whatever the copies return: it leaves them as
they were, adds one or takes one out.

* **`insertAt_cases`, `insertFront_cases`, `insertBack_cases`** — insertions.
* **`popNode_cases`, `removeAt_eq`** — removals.
* **`nodeAt_eq`, `forEachReverseLoop_eq`** — walks.
* **`clear_cases`** — the end of all nodes. -/

namespace Memkit

open LinkedChain NodeView

namespace DList

variable {V : Type*} {cfg : DListConfig V} {s t : DList V} {nodes free as bs : List ℕ} {slot : ℕ}

/-! ## Inserting -/

/-- What the insertions come to: a node made and linked between the nodes `before` and `after`. -/
def insertBetween (cfg : DListConfig V) (s : DList V) (value : V) (before after : Option ℕ) :
    Status × DList V :=
  insertLinked cfg s value fun t slot => t.splice slot before after

/-- An insertion whose way to link comes to a splice. -/
theorem insertLinked_eq (h : Inv cfg s (as ++ bs) free) (value : V) {link : DList V → ℕ → DList V}
    (hlink : ∀ t slot free, Shape cfg t (as ++ bs) [slot] free →
      link t slot = t.splice slot as.getLast? bs.head?) :
    insertLinked cfg s value link = insertBetween cfg s value as.getLast? bs.head? := by
  unfold insertBetween insertLinked
  rcases makeNode_cases h value with ⟨st, t, heq, -⟩ | ⟨slot, t, free', heq, hshape, -⟩
  · rw [heq]
  · rw [heq]
    simp only [hlink t slot free' hshape]

/-- **Inserting** between two nodes. -/
theorem insertBetween_cases (h : Inv cfg s (as ++ bs) free) (value : V) :
    Inserts cfg.policy cfg.source (view cfg s)
      (view cfg (insertBetween cfg s value as.getLast? bs.head?).2) value as bs
      (insertBetween cfg s value as.getLast? bs.head?).1 := by
  unfold insertBetween insertLinked
  rcases makeNode_cases h value with
    ⟨st, t, heq, hst, hkept, hfull⟩ | ⟨slot, t, free', heq, hshape, hsize, hcontents, hvalue, hholds, hroom⟩
  · rw [heq]
    exact .inl ⟨hst, hkept, hfull⟩
  · rw [heq]
    refine .inr ⟨slot, rfl, ⟨⟨free', hshape.splice.congr rfl rfl (fun _ _ => rfl) rfl, ?_⟩,
      hcontents, hvalue, fun hholding => ?_⟩, hroom⟩
    · show t.size + 1 = _
      rw [hsize, h.size_eq]
      simp only [List.length_append, List.length_cons]
      omega
    · show t.cells.ledger.Holds {i | i ∈ as ++ slot :: bs}
      rw [Ledger.setOf_mem_insert]
      exact hholds hholding

/-- **`insert_front`** inserts before the first node. -/
theorem insertFront_eq (h : Inv cfg s nodes free) (value : V) :
    insertFront cfg s value = insertBetween cfg s value none nodes.head? := by
  apply insertLinked_eq (show Inv cfg s ([] ++ nodes) free from h)
  intro t slot free' hshape
  have hhead : t.head = nodes.head? := hshape.chain.head_eq
  rw [linkFront_eq, hhead]
  rfl

theorem insertFront_cases (h : Inv cfg s nodes free) (value : V) :
    Inserts cfg.policy cfg.source (view cfg s) (view cfg (insertFront cfg s value).2) value [] nodes
      (insertFront cfg s value).1 := by
  rw [insertFront_eq h]
  exact insertBetween_cases (show Inv cfg s ([] ++ nodes) free from h) value

/-- **`insert_back`** inserts behind the last node. -/
theorem insertBack_eq (h : Inv cfg s nodes free) (value : V) :
    insertBack cfg s value = insertBetween cfg s value nodes.getLast? none := by
  rw [← List.append_nil nodes] at h
  apply insertLinked_eq h
  intro t slot free' hshape
  rw [List.append_nil] at hshape
  have htail : t.tail = nodes.getLast? := hshape.chain.tail_eq
  rw [linkBack_eq, htail]
  rfl

theorem insertBack_cases (h : Inv cfg s nodes free) (value : V) :
    Inserts cfg.policy cfg.source (view cfg s) (view cfg (insertBack cfg s value).2) value nodes []
      (insertBack cfg s value).1 := by
  rw [insertBack_eq h]
  rw [← List.append_nil nodes] at h
  exact insertBetween_cases h value

/-- **`node_at`** finds the node at an index, from either end. -/
theorem nodeAt_eq (h : Inv cfg s nodes free) (index : ℕ) : nodeAt s index = nodes[index]? := by
  have hsize := h.size_eq
  unfold nodeAt
  by_cases hout : s.size ≤ index
  · rw [if_pos hout, List.getElem?_eq_none (by omega)]
  rw [if_neg hout]
  by_cases hnear : index ≤ s.size / 2
  · have hwalk := h.shape.chain.forward
    rw [← List.take_append_drop index nodes] at hwalk
    have hiter := hwalk.iterate_eq
    rw [List.length_take, Nat.min_eq_left (by omega), List.head?_drop] at hiter
    rw [if_pos hnear]
    exact hiter
  · have hwalk := h.shape.chain.backward
    rw [← List.take_append_drop (s.size - 1 - index) nodes.reverse] at hwalk
    have hiter := hwalk.iterate_eq
    rw [List.length_take, List.length_reverse, Nat.min_eq_left (by omega), List.head?_drop,
      List.getElem?_reverse (by omega)] at hiter
    rw [if_neg hnear, hiter]
    congr 1
    omega

/-- **`insert_at`** an index of the list, or its end. -/
theorem insertAt_eq (h : Inv cfg s nodes free) (value : V) {index : ℕ}
    (hindex : index ≤ nodes.length) :
    insertAt cfg s index (some value) =
      insertBetween cfg s value (nodes.take index).getLast? (nodes.drop index).head? := by
  have hsize := h.size_eq
  rw [insertAt, if_neg (by omega)]
  by_cases hfront : index = 0
  · subst hfront
    rw [if_pos rfl, List.take_zero, List.drop_zero]
    exact insertFront_eq h value
  by_cases hback : index = s.size
  · rw [if_neg hfront, if_pos hback, hback, hsize, List.take_length, List.drop_length]
    exact insertBack_eq h value
  rw [if_neg hfront, if_neg hback, nodeAt_eq h, List.getElem?_eq_getElem (by omega)]
  have hlt : index < nodes.length := by omega
  have hsplit : nodes.take index ++ nodes.drop index = nodes := List.take_append_drop index nodes
  refine insertLinked_eq (hsplit.symm ▸ h) value fun t slot free' hshape => ?_
  have hchain := hshape.chain
  have hnotMem := hshape.spare_notMem
  rw [hsplit] at hnotMem
  have hne : nodes[index] ≠ slot := by
    rintro rfl
    exact hnotMem (List.getElem_mem hlt)
  rw [List.drop_eq_getElem_cons hlt] at hchain ⊢
  rw [linkBefore_eq t hne, hchain.prev_eq]
  rfl

theorem insertAt_cases (h : Inv cfg s nodes free) (value : V) {index : ℕ}
    (hindex : index ≤ nodes.length) :
    Inserts cfg.policy cfg.source (view cfg s) (view cfg (insertAt cfg s index (some value)).2) value
      (nodes.take index) (nodes.drop index) (insertAt cfg s index (some value)).1 := by
  rw [insertAt_eq h value hindex]
  rw [← List.take_append_drop index nodes] at h
  exact insertBetween_cases h value

/-! ## Removing -/

theorem destroyNodeValue_eq (cfg : DListConfig V) (s : DList V) (slot : ℕ) :
    destroyNodeValue cfg s slot =
      { s with cells := s.cells.destroyIf cfg.needsDestroy cfg.policy slot } := by
  unfold destroyNodeValue Cells.destroyIf
  split <;> rfl

/-- Destroying an element leaves the links alone. -/
theorem Shape.destroyNodeValue {spare : List ℕ} (h : Shape cfg s nodes spare free) (slot : ℕ) :
    Shape cfg (destroyNodeValue cfg s slot) nodes spare free := by
  rw [destroyNodeValue_eq]
  exact h.congr rfl rfl (fun _ _ => rfl) rfl

@[simp] theorem size_destroyNodeValue (cfg : DListConfig V) (s : DList V) (slot : ℕ) :
    (destroyNodeValue cfg s slot).size = s.size := by
  rw [destroyNodeValue_eq]

/-- Destroying an element leaves the others alone. -/
theorem contents_destroyNodeValue {i : ℕ} (hi : i ≠ slot) :
    (destroyNodeValue cfg s slot).cells.contents i = s.cells.contents i := by
  rw [destroyNodeValue_eq]
  exact Cells.destroyIf_of_ne hi

/-- If there is need, the object of the node ends. -/
theorem ledger_destroyNodeValue (hneeds : cfg.needsDestroy = true) :
    (destroyNodeValue cfg s slot).cells.ledger = s.cells.ledger.destroy slot := by
  rw [destroyNodeValue_eq]
  exact Cells.ledger_destroyIf hneeds

/-- The end of `pop_node`: unlink the node, release it and count it off. -/
def dropNode (cfg : DListConfig V) (s : DList V) (slot : ℕ) : DList V :=
  let s := releaseNode cfg (unlinkNode s slot) slot
  { s with size := s.size - 1 }

/-- Dropping a node keeps the elements. -/
theorem dropNode_spec (h : Shape cfg s (as ++ slot :: bs) [] free)
    (hsize : s.size = (as ++ slot :: bs).length) :
    (∃ free', Inv cfg (dropNode cfg s slot) (as ++ bs) free') ∧
      (dropNode cfg s slot).cells = s.cells := by
  obtain ⟨hunlinked, hsize', hcells⟩ := h.unlinkNode
  obtain ⟨free', hreleased⟩ := hunlinked.release
  refine ⟨⟨free', hreleased.congr rfl rfl (fun _ _ => rfl) rfl, ?_⟩, ?_⟩
  · show (releaseNode cfg (s.unlinkNode slot) slot).size - 1 = _
    rw [size_releaseNode, hsize', hsize]
    simp
  · show (releaseNode cfg (s.unlinkNode slot) slot).cells = _
    rw [cells_releaseNode, hcells]

/-- **`pop_node`** changes nothing if its copy fails, and takes the node out otherwise. -/
theorem popNode_cases (h : Inv cfg s (as ++ slot :: bs) free) (out : Option V) :
    Takes cfg.policy cfg.needsDestroy (view cfg s) (view cfg (popNode cfg s slot out).2) as bs slot
      out (popNode cfg s slot out).1 := by
  have hslot : slot ∉ as ++ bs := (List.nodup_cons.mp (List.nodup_middle.mp h.shape.nodup)).1
  cases out with
  | some out =>
    -- the copy to the caller comes before the node is unlinked: if it fails, the list is as it was
    by_cases hok : (s.cells.copyOut cfg.policy slot out).1.1 ≠ .ok
    · have heq : popNode cfg s slot (some out) =
          (((s.cells.copyOut cfg.policy slot out).1.1, some (s.cells.copyOut cfg.policy slot out).1.2),
            { s with cells := (s.cells.copyOut cfg.policy slot out).2 }) := if_pos hok
      rw [heq]
      refine .inl ⟨hok, ⟨⟨free, h.shape.congr rfl rfl (fun _ _ => rfl) rfl, h.size_eq⟩,
        fun _ _ => rfl, id⟩, fun hpolicy => hok ?_⟩
      rw [Cells.copyOut_of_nonFailing hpolicy]
    · have heq : popNode cfg s slot (some out) =
          ((.ok, some (s.cells.copyOut cfg.policy slot out).1.2),
            dropNode cfg { s with cells := (s.cells.copyOut cfg.policy slot out).2 } slot) :=
        if_neg hok
      rw [heq]
      rw [not_not] at hok
      have hshape : Shape cfg { s with cells := (s.cells.copyOut cfg.policy slot out).2 }
          (as ++ slot :: bs) [] free := h.shape.congr rfl rfl (fun _ _ => rfl) rfl
      obtain ⟨hinv, hcells⟩ := dropNode_spec hshape h.size_eq
      -- the node was copied out, and its element is not destroyed
      refine .inr ⟨rfl, fun hfaithful => ?_, hinv, fun i _ => ?_,
        fun _ hkeep => absurd ⟨out, rfl, hok⟩ hkeep⟩
      · exact congrArg some (hfaithful _ _ _ hok)
      · show (dropNode cfg _ slot).cells.contents i = _
        rw [hcells]
        rfl
  | none =>
    have heq : popNode cfg s slot none =
        ((.ok, none), dropNode cfg (destroyNodeValue cfg s slot) slot) := rfl
    rw [heq]
    obtain ⟨hinv, hcells⟩ := dropNode_spec (h.shape.destroyNodeValue slot)
      ((size_destroyNodeValue cfg s slot).trans h.size_eq)
    refine .inr ⟨rfl, fun _ => rfl, hinv, fun i hi => ?_, fun hneeds _ hholding => ?_⟩
    · show (dropNode cfg _ slot).cells.contents i = _
      rw [hcells]
      refine contents_destroyNodeValue ?_
      rintro rfl
      exact hslot hi
    · show (dropNode cfg _ slot).cells.ledger.Holds _
      rw [hcells, ledger_destroyNodeValue hneeds]
      exact hholding.destroy hslot cfg.policy

/-- Pop a node that was looked for; `missing` is the status if there is none. -/
def popFound (cfg : DListConfig V) (s : DList V) (node : Option ℕ) (missing : Status)
    (out : Option V) : (Status × Option V) × DList V :=
  match node with
  | none => ((missing, out), s)
  | some slot => popNode cfg s slot out

/-- **`pop_front`** pops the first node. -/
theorem popFront_eq (h : Inv cfg s nodes free) (out : Option V) :
    popFront cfg s out = some (popFound cfg s nodes.head? .empty out) := by
  have hsize := h.size_eq
  rw [popFront, h.shape.chain.head_eq, hsize]
  cases nodes <;> rfl

/-- **`pop_back`** pops the last node. -/
theorem popBack_eq (h : Inv cfg s nodes free) (out : Option V) :
    popBack cfg s out = some (popFound cfg s nodes.getLast? .empty out) := by
  rw [popBack, h.shape.chain.tail_eq, h.size_eq]
  rcases List.eq_nil_or_concat nodes with rfl | ⟨ms, i, rfl⟩
  · rfl
  · rw [List.concat_eq_append, List.getLast?_concat, if_neg (by simp)]
    rfl

/-- **`remove_at`** pops the node at an index. -/
theorem removeAt_eq (h : Inv cfg s nodes free) (index : ℕ) (out : Option V) :
    removeAt cfg s index out = some (popFound cfg s nodes[index]? .invalid out) := by
  have hsize := h.size_eq
  unfold removeAt
  by_cases hout : s.size ≤ index
  · rw [if_pos hout, List.getElem?_eq_none (by omega)]
    rfl
  have hlt : index < nodes.length := by omega
  rw [if_neg hout, List.getElem?_eq_getElem hlt]
  by_cases hfront : index = 0
  · subst hfront
    rw [if_pos rfl, popFront_eq h, List.head?_eq_getElem?, List.getElem?_eq_getElem hlt]
    rfl
  by_cases hback : index = s.size - 1
  · rw [if_neg hfront, if_pos hback, popBack_eq h, List.getLast?_eq_getElem?, ← hsize, ← hback,
      List.getElem?_eq_getElem hlt]
    rfl
  · rw [if_neg hfront, if_neg hback, nodeAt_eq h, List.getElem?_eq_getElem hlt]
    rfl

/-! ## Walks -/

/-- **The loop of `for_each_reverse`** visits them backwards, with the indices of the forward
traversal. -/
theorem forEachReverseLoop_eq (visit : List (V × ℕ) → Status) {rounds : ℕ}
    {seen : List (V × ℕ)} {current : Option ℕ} (h : Seg s.prev current nodes.reverse none)
    (hrounds : nodes.length ≤ rounds) (hne : nodes ≠ []) :
    forEachReverseLoop s visit rounds seen (nodes.length - 1) current =
      some (visitLoop visit seen (nodes.map s.cells.contents).zipIdx.reverse) := by
  induction nodes using List.reverseRecOn generalizing rounds seen current with
  | nil => exact absurd rfl hne
  | append_singleton is i ih =>
    rw [List.reverse_append, List.reverse_singleton, List.singleton_append] at h
    obtain ⟨rfl, hrest⟩ := h
    rw [List.length_append, List.length_singleton] at hrounds ⊢
    have hitems : ((is ++ [i]).map s.cells.contents).zipIdx.reverse =
        (s.cells.contents i, is.length) :: (is.map s.cells.contents).zipIdx.reverse := by
      rw [List.map_append, List.zipIdx_append, List.reverse_append]
      simp
    cases rounds with
    | zero => cases hrounds
    | succ rounds =>
      rw [forEachReverseLoop, hitems, visitLoop, Nat.add_sub_cancel]
      by_cases hst : visit (seen ++ [(s.cells.contents i, is.length)]) ≠ .ok
      · simp only [if_pos hst]
      · simp only [if_neg hst]
        by_cases hlast : is.length = 0
        · obtain rfl := List.length_eq_zero_iff.mp hlast
          rw [if_pos hlast]
          rfl
        · rw [if_neg hlast]
          refine ih hrest (Nat.le_of_succ_le_succ hrounds) ?_
          rintro rfl
          exact hlast rfl

/-- **The loop of `clear`** drops the nodes one by one. -/
theorem clearLoop_cases (h : Shape cfg s nodes [] free) {rounds : ℕ}
    (hrounds : nodes.length ≤ rounds) :
    ∃ t free', clearLoop cfg rounds s = some t ∧ Shape cfg t [] [] free' ∧
      (cfg.needsDestroy = true → (view cfg s).Holding nodes → (view cfg t).Holding []) := by
  induction nodes generalizing s free rounds with
  | nil =>
    have hhead : s.head = none := h.chain.head_eq
    refine ⟨s, free, ?_, h, fun _ => id⟩
    cases rounds <;> rw [clearLoop, hhead]
  | cons i is ih =>
    have hhead : s.head = some i := h.chain.head_eq
    obtain ⟨hunlinked, -, hcells⟩ := Shape.unlinkNode (show Shape cfg s ([] ++ i :: is) [] free from h)
    obtain ⟨free', hreleased⟩ := (hunlinked.destroyNodeValue i).release
    cases rounds with
    | zero => cases hrounds
    | succ rounds =>
      obtain ⟨t, free'', heq, hshape, hholding⟩ := ih hreleased (Nat.le_of_succ_le_succ hrounds)
      refine ⟨t, free'', ?_, hshape, fun hneeds hholds => hholding hneeds ?_⟩
      · rw [clearLoop, hhead]
        exact heq
      · show (releaseNode cfg _ i).cells.ledger.Holds {j | j ∈ [] ++ is}
        rw [cells_releaseNode, ledger_destroyNodeValue hneeds, hcells]
        exact Holding.destroy (v := view cfg s) hholds (List.nodup_cons.mp h.nodup).1 cfg.policy

/-- **`clear`** ends all nodes. -/
theorem clear_cases (h : Inv cfg s nodes free) :
    ∃ t free', clear cfg s = some t ∧ Inv cfg t [] free' ∧
      (cfg.needsDestroy = true → (view cfg s).Holding nodes → (view cfg t).Holding []) := by
  obtain ⟨t, free', heq, hshape, hholding⟩ := clearLoop_cases h.shape h.rounds_le
  refine ⟨{ t with head := none, tail := none, size := 0 }, free', ?_, ⟨?_, rfl⟩, hholding⟩
  · rw [clear, heq]
    rfl
  · have hhead : t.head = none := hshape.chain.head_eq
    have htail : t.tail = none := hshape.chain.tail_eq
    exact hshape.congr hhead.symm htail.symm (fun _ _ => rfl) rfl

theorem inv_init (cfg : DListConfig V) (links : ℕ → Option ℕ) (memory : ℕ → V) :
    ∃ free, Inv cfg (init cfg links memory) [] free := by
  obtain ⟨free, hapart⟩ := NodePool.apart_init cfg.source links
  exact ⟨free, ⟨doubly_nil _ _, hapart⟩, rfl⟩

end DList

end Memkit
