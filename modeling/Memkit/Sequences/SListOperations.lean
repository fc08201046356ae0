import Memkit.Core.NodeView
import Memkit.Foundations.DoublyLinked
import Memkit.Sequences.SList

/-! # The operations of a singly linked list

What each operation of `list_core` does to the nodes, whatever the copies return, as for the doubly
linked list.

* **`Shape`, `Inv`** — the nodes in order, those in transit between the list and the pool, the free
  ones.
* **`splice`, `cut`** — what the ways of linking and unlinking a node come to.
* **`insertAt_cases`, `removeAt_cases`, `clear_cases`** — the operations. -/

namespace Memkit

open LinkedChain NodeView

namespace SList

variable {V : Type*} {cfg : SListConfig V} {s t : SList V} {nodes spare free as bs : List ℕ}
  {slot : ℕ}

/-- The list is `nodes`; the nodes `spare` are in use but not linked, and `free` is the free
list. -/
structure Shape (cfg : SListConfig V) (s : SList V) (nodes spare free : List ℕ) : Prop where
  chain : Tailed s.next s.head s.tail nodes
  apart : s.pool.Apart cfg.source (nodes ++ spare) free

/-- The list is `nodes`, and `size_` counts them. -/
structure Inv (cfg : SListConfig V) (s : SList V) (nodes free : List ℕ) : Prop where
  shape : Shape cfg s nodes [] free
  size_eq : s.size = nodes.length

/-- What the operations do is stated for this view. -/
def view (cfg : SListConfig V) (s : SList V) : NodeView V where
  shape nodes := ∃ free, Inv cfg s nodes free
  cells := s.cells

theorem Shape.nodup (h : Shape cfg s nodes spare free) : nodes.Nodup :=
  (List.nodup_append.mp (List.nodup_append.mp h.apart.nodup).1).1

/-- A node that is not linked is not in the list. -/
theorem Shape.spare_notMem (h : Shape cfg s nodes (slot :: spare) free) : slot ∉ nodes := by
  have hdisj := List.disjoint_of_nodup_append (List.nodup_append.mp h.apart.nodup).1
  exact fun hmem => hdisj hmem List.mem_cons_self

/-- Only the links matter. -/
theorem Shape.congr (h : Shape cfg s nodes spare free) (hhead : t.head = s.head)
    (htail : t.tail = s.tail) (hpool : t.pool = s.pool) : Shape cfg t nodes spare free := by
  constructor
  · rw [hhead, htail]
    refine h.chain.congr fun i _ => ?_
    show t.pool.next i = s.pool.next i
    rw [hpool]
  · rw [hpool]
    exact h.apart

theorem Inv.rounds_le (h : Inv cfg s nodes free) : nodes.length ≤ rounds cfg s := by
  have hle := h.shape.apart.length_le
  rwa [List.append_nil] at hle

/-! ## Nodes -/

/-- **`release_node`** ends the use of a node that is not linked. -/
theorem Shape.release (h : Shape cfg s nodes [slot] free) :
    ∃ free', Shape cfg (releaseNode cfg s slot) nodes [] free' := by
  have hslot := h.spare_notMem
  obtain ⟨free', hapart, hnext⟩ := (h.apart.perm (List.perm_append_singleton slot nodes)).release
  refine ⟨free', h.chain.congr fun i hi => hnext i ?_, ?_⟩
  · rintro rfl
    exact hslot hi
  · rw [List.append_nil]
    exact hapart

/-- **`make_node`** fails and leaves the list alone, or gives a node with the element. -/
theorem makeNode_cases (h : Inv cfg s nodes free) (value : V) :
    (∃ st t, makeNode cfg s value = (.error st, t) ∧ st ≠ .ok ∧
      Kept (view cfg s) (view cfg t) nodes ∧
      (cfg.policy.NonFailing → cfg.source.fixedPool = true →
        st = .full ∧ nodes.length = cfg.source.capacity)) ∨
    ∃ slot t free', makeNode cfg s value = (.ok slot, t) ∧ Shape cfg t nodes [slot] free' ∧
      t.size = s.size ∧ (∀ i ∈ nodes, t.cells.contents i = s.cells.contents i) ∧
      (cfg.policy.Faithful → t.cells.contents slot = value) ∧
      ((view cfg s).Holding nodes → t.cells.ledger.Holds (insert slot {i | i ∈ nodes})) ∧
      (cfg.source.fixedPool = true → nodes.length < cfg.source.capacity) := by
  have hlength := h.shape.apart.length_add
  have hapart := h.shape.apart
  rw [List.append_nil] at hlength hapart
  unfold makeNode acquireNode
  rcases hapart.acquire with
    ⟨st, pool, heq, hst, hnext, hapart', hfull⟩ | ⟨slot, pool, free', heq, hnew, hnext, hapart', hfirst⟩
  · rw [heq]
    refine .inl ⟨st, _, rfl, hst, ⟨⟨free, ⟨h.shape.chain.congr fun i _ => congrFun hnext i, ?_⟩,
      h.size_eq⟩, fun _ _ => rfl, id⟩, ?_⟩
    · rw [List.append_nil]
      exact hapart'
    · intro _ hpool
      obtain ⟨rfl, rfl⟩ := hfull hpool
      exact ⟨rfl, hlength hpool⟩
  rw [heq]
  have hne : ∀ i ∈ nodes, i ≠ slot := by
    rintro i hi rfl
    exact hnew hi
  -- the copy to the slot of the new node
  have hcopied := Cells.copied cfg.policy s.cells slot value
  have hshape : Shape cfg
      { s with pool := pool, cells := (s.cells.copyConstruct cfg.policy slot value).2 } nodes [slot]
      free' := by
    refine ⟨h.shape.chain.congr fun i hi => ?_, ?_⟩
    · show pool.next i = _
      rw [hnext]
      exact Function.update_of_ne (hne i hi) _ _
    · exact hapart'.perm (List.perm_append_singleton slot nodes).symm
  by_cases hok : (s.cells.copyConstruct cfg.policy slot value).1 ≠ .ok
  · simp only [if_pos hok]
    obtain ⟨free'', hrelease⟩ := hshape.release
    refine .inl ⟨_, _, rfl, hok, ⟨⟨free'', hrelease, h.size_eq⟩, ?_, ?_⟩, ?_⟩
    · exact fun i hi => hcopied.frame i (hne i hi)
    · exact fun hholding => hcopied.failed hok _ hholding hnew
    · exact fun hpolicy => absurd (hcopied.ok_of_nonFailing hpolicy) hok
  · simp only [if_neg hok]
    rw [not_not] at hok
    refine .inr ⟨slot, _, free', rfl, hshape, rfl, fun i hi => hcopied.frame i (hne i hi),
      hcopied.value hok, fun hholding => hcopied.constructed hok _ hholding hnew, ?_⟩
    intro hpool
    have hlen := hlength hpool
    rw [hfirst hpool, List.length_cons] at hlen
    omega

/-! ## Linking and unlinking -/

/-- A node linked between the nodes `before` and `after`. -/
def splice (s : SList V) (slot : ℕ) (before after : Option ℕ) : SList V where
  head := setStart s.head before (some slot)
  tail := setStart s.tail after (some slot)
  pool := { s.pool with next := setNext (Function.update s.next slot after) before (some slot) }
  size := s.size
  cells := s.cells

/-- The node between `before` and `after` unlinked. -/
def cut (s : SList V) (before after : Option ℕ) : SList V where
  head := setStart s.head before after
  tail := setStart s.tail after before
  pool := { s.pool with next := setNext s.next before after }
  size := s.size
  cells := s.cells

/-- Writing the links of nodes in use keeps the free list. -/
theorem Shape.apart_setNext (h : Shape cfg s nodes spare free) {used : List ℕ}
    (hperm : (nodes ++ spare).Perm used) {before : Option ℕ} (hbefore : ∀ i, before = some i → i ∈ used)
    (link : Option ℕ) {next : ℕ → Option ℕ} (hnext : ∀ i ∈ free, next i = s.next i) :
    NodePool.Apart cfg.source { s.pool with next := setNext next before link } used free := by
  refine NodePool.Apart.congr (h.apart.perm hperm) rfl (fun i hi => ?_) rfl
  rw [← show s.next i = s.pool.next i from rfl, ← hnext i hi]
  apply setNext_of_ne
  intro heq
  exact (h.apart.perm hperm).notMem (hbefore i heq) hi

/-- **Linking** a node at any place. -/
theorem Shape.splice (h : Shape cfg s (as ++ bs) [slot] free) :
    Shape cfg (s.splice slot as.getLast? bs.head?) (as ++ slot :: bs) [] free where
  chain := h.chain.insert h.nodup h.spare_notMem
  apart := by
    apply h.apart_setNext
    · rw [List.append_nil]
      exact (List.perm_append_singleton slot _).trans List.perm_middle.symm
    · intro i hlast
      simp [List.mem_of_getLast? hlast]
    · intro i hi
      apply Function.update_of_ne
      rintro rfl
      exact h.apart.notMem (by simp) hi

/-- **Unlinking** a node anywhere. -/
theorem Shape.cut (h : Shape cfg s (as ++ slot :: bs) [] free) :
    Shape cfg (s.cut as.getLast? bs.head?) (as ++ bs) [slot] free where
  chain := h.chain.unlink h.nodup
  apart := by
    apply h.apart_setNext
    · rw [List.append_nil]
      exact List.perm_middle.trans (List.perm_append_singleton slot _).symm
    · intro i hlast
      simp [List.mem_of_getLast? hlast]
    · exact fun _ _ => rfl

/-! ## Inserting -/

/-- What the insertions come to: a node made and linked between the nodes `before` and `after`. -/
def insertBetween (cfg : SListConfig V) (s : SList V) (value : V) (before after : Option ℕ) :
    Status × SList V :=
  insertLinked cfg s value fun t slot => t.splice slot before after

/-- An insertion whose way to link comes to a splice. -/
theorem insertLinked_eq (h : Inv cfg s (as ++ bs) free) (value : V) {link : SList V → ℕ → SList V}
    (hlink : ∀ t slot free, Shape cfg t (as ++ bs) [slot] free →
      link t slot = t.splice slot as.getLast? bs.head?) :
    insertLinked cfg s value link = insertBetween cfg s value as.getLast? bs.head? := by
  unfold insertBetween insertLinked
  rcases makeNode_cases h value with ⟨st, t, heq, -⟩ | ⟨slot, t, free', heq, hshape, -⟩
  · rw [heq]
  · rw [heq]
    simp only [hlink t slot free' hshape]

/-- **Inserting** between two nodes. -/
theorem insertBetween_cases (h : Inv cfg s (as ++ bs) free) (value : V) :
    Inserts cfg.policy cfg.source (view cfg s)
      (view cfg (insertBetween cfg s value as.getLast? bs.head?).2) value as bs
      (insertBetween cfg s value as.getLast? bs.head?).1 := by
  unfold insertBetween insertLinked
  rcases makeNode_cases h value with
    ⟨st, t, heq, hst, hkept, hfull⟩ | ⟨slot, t, free', heq, hshape, hsize, hcontents, hvalue, hholds, hroom⟩
  · rw [heq]
    exact .inl ⟨hst, hkept, hfull⟩
  · rw [heq]
    refine .inr ⟨slot, rfl, ⟨⟨free', hshape.splice.congr rfl rfl rfl, ?_⟩,
      hcontents, hvalue, fun hholding => ?_⟩, hroom⟩
    · show t.size + 1 = _
      rw [hsize, h.size_eq]
      simp only [List.length_append, List.length_cons]
      omega
    · show t.cells.ledger.Holds {i | i ∈ as ++ slot :: bs}
      rw [Ledger.setOf_mem_insert]
      exact hholds hholding

/-- **`insert_front`** inserts before the first node. -/
theorem insertFront_eq (h : Inv cfg s nodes free) (value : V) :
    insertFront cfg s value = insertBetween cfg s value none nodes.head? := by
  apply insertLinked_eq (show Inv cfg s ([] ++ nodes) free from h)
  intro t slot free' hshape
  have hhead : t.head = nodes.head? := hshape.chain.head_eq
  have htail : t.tail = nodes.getLast? := hshape.chain.tail_eq
  show (if t.tail = none then _ else _) = t.splice slot none nodes.head?
  cases nodes with
  | nil =>
    rw [if_pos (show t.tail = none from htail)]
    simp [SList.splice, writeNext, NodePool.setLink, setStart, setNext, hhead, next]
  | cons i is =>
    rw [if_neg (by simp [htail])]
    simp [SList.splice, writeNext, NodePool.setLink, setStart, setNext, hhead, next]

theorem insertFront_cases (h : Inv cfg s nodes free) (value : V) :
    Inserts cfg.policy cfg.source (view cfg s) (view cfg (insertFront cfg s value).2) value [] nodes
      (insertFront cfg s value).1 := by
  rw [insertFront_eq h]
  exact insertBetween_cases (show Inv cfg s ([] ++ nodes) free from h) value

/-- **`insert_back`** inserts behind the last node. -/
theorem insertBack_eq (h : Inv cfg s nodes free) (value : V) :
    insertBack cfg s value = insertBetween cfg s value nodes.getLast? none := by
  rw [← List.append_nil nodes] at h
  apply insertLinked_eq h
  intro t slot free' hshape
  rw [List.append_nil] at hshape
  have htail : t.tail = nodes.getLast? := hshape.chain.tail_eq
  rw [← htail]
  rcases hlast : t.tail with _ | last <;>
    simp [SList.splice, writeNext, NodePool.setLink, setStart, setNext, hlast, next]

theorem insertBack_cases (h : Inv cfg s nodes free) (value : V) :
    Inserts cfg.policy cfg.source (view cfg s) (view cfg (insertBack cfg s value).2) value nodes []
      (insertBack cfg s value).1 := by
  rw [insertBack_eq h]
  rw [← List.append_nil nodes] at h
  exact insertBetween_cases h value

/-- **The loop of `node_at`** -/
theorem nodeAtLoop_eq {index : ℕ} {prev current : Option ℕ} (h : Seg s.next current nodes none)
    (hindex : index ≤ nodes.length) :
    nodeAtLoop s index prev current = (nodes[index]?, (nodes.take index).getLast?.or prev) := by
  induction index generalizing nodes prev current with
  | zero =>
    rw [nodeAtLoop, h.start_eq, ← List.head?_eq_getElem?, Option.or_none]
    rfl
  | succ index ih =>
    cases nodes with
    | nil => cases hindex
    | cons i is =>
      obtain ⟨rfl, hrest⟩ := h
      rw [nodeAtLoop, ih hrest (Nat.le_of_succ_le_succ hindex), List.getElem?_cons_succ,
        List.take_succ_cons, List.getLast?_cons]
      cases (is.take index).getLast? <;> rfl

/-- **`node_at`** finds the node at an index, and the one before it. -/
theorem nodeAt_eq (h : Inv cfg s nodes free) {index : ℕ} (hindex : index ≤ nodes.length) :
    nodeAt s index = (nodes[index]?, (nodes.take index).getLast?) := by
  rw [nodeAt, nodeAtLoop_eq h.shape.chain.forward hindex, Option.or_none]

/-- There is a node before every index but the first. -/
theorem exists_getLast?_take {index : ℕ} (hpos : index ≠ 0) (hindex : index ≤ nodes.length) :
    ∃ prev, (nodes.take index).getLast? = some prev := by
  apply Option.isSome_iff_exists.mp
  rw [List.getLast?_isSome]
  intro hnil
  have hlength := congrArg List.length hnil
  rw [List.length_take, List.length_nil] at hlength
  omega

/-- **`insert_at`** an index of the list, or its end. -/
theorem insertAt_eq (h : Inv cfg s nodes free) (value : V) {index : ℕ}
    (hindex : index ≤ nodes.length) :
    insertAt cfg s index (some value) =
      insertBetween cfg s value (nodes.take index).getLast? (nodes.drop index).head? := by
  have hsize := h.size_eq
  rw [insertAt, if_neg (by omega)]
  by_cases hfront : index = 0
  · subst hfront
    rw [if_pos rfl, List.take_zero, List.drop_zero]
    exact insertFront_eq h value
  by_cases hback : index = s.size
  · rw [if_neg hfront, if_pos hback, hback, hsize, List.take_length, List.drop_length]
    exact insertBack_eq h value
  have hlt : index < nodes.length := by omega
  have hsplit : nodes.take index ++ nodes.drop index = nodes := List.take_append_drop index nodes
  obtain ⟨prev, hprev⟩ := exists_getLast?_take hfront hindex
  rw [if_neg hfront, if_neg hback, nodeAt_eq h hindex, List.getElem?_eq_getElem hlt, hprev]
  refine (insertLinked_eq (hsplit.symm ▸ h) value fun t slot free' hshape => ?_).trans ?_
  · rw [hprev, List.drop_eq_getElem_cons hlt, List.head?_cons]
    rfl
  · rw [hprev]

theorem insertAt_cases (h : Inv cfg s nodes free) (value : V) {index : ℕ}
    (hindex : index ≤ nodes.length) :
    Inserts cfg.policy cfg.source (view cfg s) (view cfg (insertAt cfg s index (some value)).2) value
      (nodes.take index) (nodes.drop index) (insertAt cfg s index (some value)).1 := by
  rw [insertAt_eq h value hindex]
  rw [← List.take_append_drop index nodes] at h
  exact insertBetween_cases h value

/-! ## Removing -/

theorem destroyNodeValue_eq (cfg : SListConfig V) (s : SList V) (slot : ℕ) :
    destroyNodeValue cfg s slot =
      { s with cells := s.cells.destroyIf cfg.needsDestroy cfg.policy slot } := by
  unfold destroyNodeValue Cells.destroyIf
  split <;> rfl

/-- Destroying an element leaves the links alone. -/
theorem Shape.destroyNodeValue (h : Shape cfg s nodes spare free) (slot : ℕ) :
    Shape cfg (destroyNodeValue cfg s slot) nodes spare free := by
  rw [destroyNodeValue_eq]
  exact h.congr rfl rfl rfl

@[simp] theorem size_destroyNodeValue (cfg : SListConfig V) (s : SList V) (slot : ℕ) :
    (destroyNodeValue cfg s slot).size = s.size := by
  rw [destroyNodeValue_eq]

/-- Destroying an element leaves the others alone. -/
theorem contents_destroyNodeValue {i : ℕ} (hi : i ≠ slot) :
    (destroyNodeValue cfg s slot).cells.contents i = s.cells.contents i := by
  rw [destroyNodeValue_eq]
  exact Cells.destroyIf_of_ne hi

/-- If there is need, the object of the node ends. -/
theorem ledger_destroyNodeValue (hneeds : cfg.needsDestroy = true) :
    (destroyNodeValue cfg s slot).cells.ledger = s.cells.ledger.destroy slot := by
  rw [destroyNodeValue_eq]
  exact Cells.ledger_destroyIf hneeds

/-- The end of a removal: cut the node out, release it and count it off. -/
def dropNode (cfg : SListConfig V) (s : SList V) (slot : ℕ) (before after : Option ℕ) : SList V :=
  let s := releaseNode cfg (s.cut before after) slot
  { s with size := s.size - 1 }

/-- Dropping a node keeps the others. -/
theorem dropNode_spec (h : Shape cfg s (as ++ slot :: bs) [] free)
    (hsize : s.size = (as ++ slot :: bs).length) :
    ∃ free', Inv cfg (dropNode cfg s slot as.getLast? bs.head?) (as ++ bs) free' := by
  obtain ⟨free', hreleased⟩ := h.cut.release
  refine ⟨free', hreleased.congr rfl rfl rfl, ?_⟩
  show s.size - 1 = _
  rw [hsize]
  simp

/-- **A removal** changes nothing if its copy fails, and takes the node out otherwise. -/
theorem removeLinked_cases (h : Inv cfg s (as ++ slot :: bs) free) (out : Option V)
    {unlink : SList V → SList V}
    (hunlink : ∀ t, Shape cfg t (as ++ slot :: bs) [] free →
      unlink t = t.cut as.getLast? bs.head?) :
    Takes cfg.policy cfg.needsDestroy (view cfg s)
      (view cfg (removeLinked cfg s slot out unlink).2) as bs slot out
      (removeLinked cfg s slot out unlink).1 := by
  have hslot : slot ∉ as ++ bs := (List.nodup_cons.mp (List.nodup_middle.mp h.shape.nodup)).1
  -- the list with the element taken, and what is left of it
  have hrest : ∀ t : SList V, Shape cfg t (as ++ slot :: bs) [] free →
      { releaseNode cfg (unlink t) slot with size := (releaseNode cfg (unlink t) slot).size - 1 } =
        dropNode cfg t slot as.getLast? bs.head? := by
    intro t ht
    rw [hunlink t ht]
    rfl
  cases out with
  | some out =>
    by_cases hok : (s.cells.copyOut cfg.policy slot out).1.1 ≠ .ok
    · have heq : removeLinked cfg s slot (some out) unlink =
          (((s.cells.copyOut cfg.policy slot out).1.1, some (s.cells.copyOut cfg.policy slot out).1.2),
            { s with cells := (s.cells.copyOut cfg.policy slot out).2 }) := if_pos hok
      rw [heq]
      refine .inl ⟨hok, ⟨⟨free, h.shape.congr rfl rfl rfl, h.size_eq⟩,
        fun _ _ => rfl, id⟩, fun hpolicy => hok ?_⟩
      rw [Cells.copyOut_of_nonFailing hpolicy]
    · have hshape : Shape cfg { s with cells := (s.cells.copyOut cfg.policy slot out).2 }
          (as ++ slot :: bs) [] free := h.shape.congr rfl rfl rfl
      have heq : removeLinked cfg s slot (some out) unlink =
          ((.ok, some (s.cells.copyOut cfg.policy slot out).1.2),
            dropNode cfg { s with cells := (s.cells.copyOut cfg.policy slot out).2 } slot
              as.getLast? bs.head?) := by
        rw [← hrest _ hshape]
        exact if_neg hok
      rw [heq]
      rw [not_not] at hok
      refine .inr ⟨rfl, fun hfaithful => ?_, dropNode_spec hshape h.size_eq, fun i _ => rfl,
        fun _ hkeep => absurd ⟨out, rfl, hok⟩ hkeep⟩
      exact congrArg some (hfaithful _ _ _ hok)
  | none =>
    have hshape := h.shape.destroyNodeValue slot
    have heq : removeLinked cfg s slot none unlink =
        ((.ok, none), dropNode cfg (destroyNodeValue cfg s slot) slot as.getLast? bs.head?) := by
      rw [← hrest _ hshape]
      rfl
    rw [heq]
    refine .inr ⟨rfl, fun _ => rfl,
      dropNode_spec hshape ((size_destroyNodeValue cfg s slot).trans h.size_eq), fun i hi => ?_,
      fun hneeds _ hholding => ?_⟩
    · refine contents_destroyNodeValue ?_
      rintro rfl
      exact hslot hi
    · show (destroyNodeValue cfg s slot).cells.ledger.Holds _
      rw [ledger_destroyNodeValue hneeds]
      exact hholding.destroy hslot cfg.policy

/-- What a removal at an index does, if there is a node at the index. -/
def TakesAt (cfg : SListConfig V) (s : SList V) (nodes : List ℕ) (index : ℕ) (out : Option V)
    (r : (Status × Option V) × SList V) : Prop :=
  ∃ as bs slot, nodes = as ++ slot :: bs ∧ as.length = index ∧
    Takes cfg.policy cfg.needsDestroy (view cfg s) (view cfg r.2) as bs slot out r.1

/-- `unlink_front` cuts the first node out. -/
theorem unlinkFront_eq (h : Shape cfg s (slot :: bs) spare free) :
    unlinkFront s = s.cut none bs.head? := by
  have hhead : s.head = some slot := h.chain.head_eq
  have hnext : s.next slot = bs.head? :=
    (show Tailed s.next s.head s.tail ([] ++ slot :: bs) from h.chain).next_eq
  unfold unlinkFront SList.cut
  rw [hhead]
  simp only [hnext]
  cases bs with
  | nil => rfl
  | cons i is => rfl

/-- **`pop_front`** -/
theorem popFront_cases (h : Inv cfg s nodes free) (out : Option V) :
    (nodes = [] ∧ popFront cfg s out = some ((.empty, out), s)) ∨
    ∃ r, popFront cfg s out = some r ∧ TakesAt cfg s nodes 0 out r := by
  unfold popFront
  cases nodes with
  | nil => exact .inl ⟨rfl, if_pos h.size_eq⟩
  | cons slot bs =>
    have hne : s.size ≠ 0 := by
      rw [h.size_eq]
      exact Nat.succ_ne_zero _
    have hhead : s.head = some slot := h.shape.chain.head_eq
    rw [if_neg hne, hhead]
    refine .inr ⟨_, rfl, [], bs, slot, rfl, rfl, ?_⟩
    exact removeLinked_cases (show Inv cfg s ([] ++ slot :: bs) free from h) out
      fun t ht => unlinkFront_eq ht

/-- **`pop_back`** -/
theorem popBack_cases (h : Inv cfg s nodes free) (out : Option V) :
    (nodes = [] ∧ popBack cfg s out = ((.empty, out), s)) ∨
    TakesAt cfg s nodes (nodes.length - 1) out (popBack cfg s out) := by
  have hsize := h.size_eq
  unfold popBack
  rcases List.eq_nil_or_concat nodes with rfl | ⟨as, slot, rfl⟩
  · exact .inl ⟨rfl, if_pos hsize⟩
  rw [List.concat_eq_append] at h hsize ⊢
  rw [List.length_append, List.length_singleton] at hsize ⊢
  have hpred : s.size - 1 = as.length := by omega
  rw [if_neg (by omega), hpred, nodeAt_eq h (by simp)]
  simp only [List.getElem?_append_right le_rfl, Nat.sub_self, List.getElem?_cons_zero,
    List.take_left', Nat.add_sub_cancel]
  refine .inr ⟨as, [], slot, rfl, rfl, removeLinked_cases h out fun t ht => ?_⟩
  -- there is nothing behind the last node
  have hhead : t.head = (as ++ [slot]).head? := ht.chain.head_eq
  rcases hlast : as.getLast? with _ | prev
  · obtain rfl := List.getLast?_eq_none_iff.mp hlast
    rfl
  · rfl

/-- **`remove_at`** an index of the list. -/
theorem removeAt_cases (h : Inv cfg s nodes free) {index : ℕ} (hindex : index < nodes.length)
    (out : Option V) : ∃ r, removeAt cfg s index out = some r ∧ TakesAt cfg s nodes index out r := by
  have hsize := h.size_eq
  unfold removeAt
  rw [if_neg (by omega)]
  by_cases hfront : index = 0
  · subst hfront
    rw [if_pos rfl]
    rcases popFront_cases h out with ⟨rfl, -⟩ | htakes
    · cases hindex
    · exact htakes
  by_cases hback : index = s.size - 1
  · rw [if_neg hfront, if_pos hback]
    rcases popBack_cases h out with ⟨rfl, -⟩ | htakes
    · cases hindex
    · rw [hback, hsize]
      exact ⟨_, rfl, htakes⟩
  obtain ⟨prev, hprev⟩ := exists_getLast?_take hfront hindex.le
  rw [if_neg hfront, if_neg hback, nodeAt_eq h hindex.le, List.getElem?_eq_getElem hindex, hprev]
  have hsplit : nodes.take index ++ nodes[index] :: nodes.drop (index + 1) = nodes := by
    rw [List.getElem_cons_drop, List.take_append_drop]
  refine ⟨_, rfl, nodes.take index, nodes.drop (index + 1), nodes[index], hsplit.symm, ?_,
    removeLinked_cases (hsplit.symm ▸ h) out fun t ht => ?_⟩
  · rw [List.length_take]
    omega
  · -- the node has one before it and one behind it
    have hnext : t.next nodes[index] = (nodes.drop (index + 1)).head? := ht.chain.next_eq
    have hbehind : nodes[index + 1]? = some nodes[index + 1] := List.getElem?_eq_getElem (by omega)
    rw [hprev]
    simp only [hnext, List.head?_drop, hbehind]
    rfl

/-! ## Clearing -/

/-- **The loop of `clear`** drops the nodes one by one. -/
theorem clearLoop_cases (h : Shape cfg s nodes [] free) {rounds : ℕ}
    (hrounds : nodes.length ≤ rounds) :
    ∃ t free', clearLoop cfg rounds s = some t ∧ Shape cfg t [] [] free' ∧
      (cfg.needsDestroy = true → (view cfg s).Holding nodes → (view cfg t).Holding []) := by
  induction nodes generalizing s free rounds with
  | nil =>
    have hhead : s.head = none := h.chain.head_eq
    refine ⟨s, free, ?_, h, fun _ => id⟩
    cases rounds <;> rw [clearLoop, hhead]
  | cons i is ih =>
    have hhead : s.head = some i := h.chain.head_eq
    have hcut := Shape.cut (show Shape cfg s ([] ++ i :: is) [] free from h)
    obtain ⟨free', hreleased⟩ := (hcut.destroyNodeValue i).release
    cases rounds with
    | zero => cases hrounds
    | succ rounds =>
      obtain ⟨t, free'', heq, hshape, hholding⟩ := ih hreleased (Nat.le_of_succ_le_succ hrounds)
      refine ⟨t, free'', ?_, hshape, fun hneeds hholds => hholding hneeds ?_⟩
      · rw [clearLoop, hhead]
        simp only [unlinkFront_eq h]
        exact heq
      · show (destroyNodeValue cfg (s.cut none is.head?) i).cells.ledger.Holds {j | j ∈ [] ++ is}
        rw [ledger_destroyNodeValue hneeds]
        exact Holding.destroy (v := view cfg s) hholds (List.nodup_cons.mp h.nodup).1 cfg.policy

/-- **`clear`** ends all nodes. -/
theorem clear_cases (h : Inv cfg s nodes free) :
    ∃ t free', clear cfg s = some t ∧ Inv cfg t [] free' ∧
      (cfg.needsDestroy = true → (view cfg s).Holding nodes → (view cfg t).Holding []) := by
  obtain ⟨t, free', heq, hshape, hholding⟩ := clearLoop_cases h.shape h.rounds_le
  refine ⟨{ t with tail := none, size := 0 }, free', ?_, ⟨?_, rfl⟩, hholding⟩
  · rw [clear, heq]
    rfl
  · have htail : t.tail = none := hshape.chain.tail_eq
    exact hshape.congr rfl htail.symm rfl

theorem inv_init (cfg : SListConfig V) (links : ℕ → Option ℕ) (memory : ℕ → V) :
    ∃ free, Inv cfg (init cfg links memory) [] free := by
  obtain ⟨free, hapart⟩ := NodePool.apart_init cfg.source links
  exact ⟨free, ⟨tailed_nil _, hapart⟩, rfl⟩

end SList

end Memkit
