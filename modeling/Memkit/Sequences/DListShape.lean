import Memkit.Core.NodeView
import Memkit.Foundations.DoublyLinked
import Memkit.Sequences.DList

/-! # The shape of a doubly linked list

The nodes of a `DList` are a doubly linked list from `head_` to `tail_`, apart from the free nodes.

* **`Shape`** — the nodes in order, those in transit between the list and the pool, the free ones.
* **`splice`** — what the three ways of linking a node come to.
* **`Inv`** — the shape between calls, with `size_`.
* **`makeNode_cases`** — what making a node does, whatever the copy returns. -/

namespace Memkit

open LinkedChain NodeView

namespace DList

variable {V : Type*} {cfg : DListConfig V} {s t : DList V} {nodes spare free as bs : List ℕ}
  {slot : ℕ}

/-- The list is `nodes`; the nodes `spare` are in use but not linked, and `free` is the free
list. -/
structure Shape (cfg : DListConfig V) (s : DList V) (nodes spare free : List ℕ) : Prop where
  chain : Doubly s.next s.prev s.head s.tail nodes
  apart : s.pool.Apart cfg.source (nodes ++ spare) free

theorem Shape.nodup (h : Shape cfg s nodes spare free) : nodes.Nodup :=
  (List.nodup_append.mp (List.nodup_append.mp h.apart.nodup).1).1

/-- A node that is not linked is not in the list. -/
theorem Shape.spare_notMem (h : Shape cfg s nodes (slot :: spare) free) : slot ∉ nodes := by
  have hdisj := List.disjoint_of_nodup_append (List.nodup_append.mp h.apart.nodup).1
  exact fun hmem => hdisj hmem List.mem_cons_self

/-- Only the links matter. -/
theorem Shape.congr (h : Shape cfg s nodes spare free) (hhead : t.head = s.head)
    (htail : t.tail = s.tail) (hprev : ∀ i ∈ nodes, t.prev i = s.prev i) (hpool : t.pool = s.pool) :
    Shape cfg t nodes spare free := by
  constructor
  · rw [hhead, htail]
    refine h.chain.congr (fun i _ => ?_) hprev
    show t.pool.next i = s.pool.next i
    rw [hpool]
  · rw [hpool]
    exact h.apart

/-! ## Nodes -/

/-- **`acquire_node`** fails and leaves the list alone, or gives a node that is not in it. -/
theorem acquireNode_cases (h : Shape cfg s nodes [] free) :
    (∃ st t, acquireNode cfg s = (.error st, t) ∧ st ≠ .ok ∧ Shape cfg t nodes [] free ∧
      t.size = s.size ∧ t.cells = s.cells ∧
      (cfg.source.fixedPool = true → st = .full ∧ free = [])) ∨
    ∃ slot t free', acquireNode cfg s = (.ok slot, t) ∧ Shape cfg t nodes [slot] free' ∧
      t.size = s.size ∧ t.cells = s.cells ∧
      (cfg.source.fixedPool = true → free = slot :: free') := by
  have hapart := h.apart
  rw [List.append_nil] at hapart
  unfold acquireNode
  rcases hapart.acquire with
    ⟨st, pool, heq, hst, hnext, hapart', hfull⟩ | ⟨slot, pool, free', heq, hnew, hnext, hapart', hfirst⟩
  · rw [heq]
    refine .inl ⟨st, _, rfl, hst, ⟨h.chain.congr (fun i _ => ?_) fun _ _ => rfl, ?_⟩, rfl, rfl, hfull⟩
    · exact congrFun hnext i
    · rw [List.append_nil]
      exact hapart'
  · have hne : ∀ i ∈ nodes, i ≠ slot := by
      rintro i hi rfl
      exact hnew hi
    rw [heq]
    refine .inr ⟨slot, _, free', rfl, ⟨h.chain.congr (fun i hi => ?_) fun i hi => ?_, ?_⟩, rfl, rfl,
      hfirst⟩
    · show pool.next i = _
      rw [hnext]
      exact Function.update_of_ne (hne i hi) _ _
    · exact Function.update_of_ne (hne i hi) _ _
    · exact hapart'.perm (List.perm_append_singleton slot nodes).symm

/-- **`release_node`** ends the use of a node that is not linked. -/
theorem Shape.release (h : Shape cfg s nodes [slot] free) :
    ∃ free', Shape cfg (releaseNode cfg s slot) nodes [] free' := by
  have hslot := h.spare_notMem
  have hne : ∀ i ∈ nodes, i ≠ slot := fun i hi heq => hslot (heq ▸ hi)
  obtain ⟨free', hapart, hnext⟩ := (h.apart.perm (List.perm_append_singleton slot nodes)).release
  refine ⟨free', ?_, ?_⟩
  · unfold releaseNode
    by_cases hpool : cfg.source.fixedPool = true
    · rw [if_pos hpool]
      exact h.chain.congr (fun i hi => hnext i (hne i hi))
        fun i hi => Function.update_of_ne (hne i hi) _ _
    · rw [if_neg hpool]
      exact h.chain.congr (fun i hi => hnext i (hne i hi)) fun _ _ => rfl
  · rw [List.append_nil]
    unfold releaseNode
    by_cases hpool : cfg.source.fixedPool = true
    · rw [if_pos hpool]
      exact hapart
    · rw [if_neg hpool]
      exact hapart

@[simp] theorem size_releaseNode (cfg : DListConfig V) (s : DList V) (slot : ℕ) :
    (releaseNode cfg s slot).size = s.size := by
  unfold releaseNode
  by_cases hpool : cfg.source.fixedPool = true
  · rw [if_pos hpool]
    rfl
  · rw [if_neg hpool]

@[simp] theorem cells_releaseNode (cfg : DListConfig V) (s : DList V) (slot : ℕ) :
    (releaseNode cfg s slot).cells = s.cells := by
  unfold releaseNode
  by_cases hpool : cfg.source.fixedPool = true
  · rw [if_pos hpool]
    rfl
  · rw [if_neg hpool]

/-! ## Linking and unlinking -/

/-- A node linked between the nodes `before` and `after`. -/
def splice (s : DList V) (slot : ℕ) (before after : Option ℕ) : DList V where
  head := setStart s.head before (some slot)
  tail := setStart s.tail after (some slot)
  prev := setNext (Function.update s.prev slot before) after (some slot)
  pool := { s.pool with next := setNext (Function.update s.next slot after) before (some slot) }
  size := s.size
  cells := s.cells

theorem linkFront_eq (s : DList V) (slot : ℕ) : linkFront s slot = splice s slot none s.head := by
  unfold linkFront splice
  rcases hhead : s.head with _ | head <;>
    simp [writePrev, writeNext, NodePool.setLink, setStart, setNext, hhead, next]

theorem linkBack_eq (s : DList V) (slot : ℕ) : linkBack s slot = splice s slot s.tail none := by
  unfold linkBack splice
  rcases htail : s.tail with _ | tail <;>
    simp [writePrev, writeNext, NodePool.setLink, setStart, setNext, htail, next]

theorem linkBefore_eq (s : DList V) {target : ℕ} (hne : target ≠ slot) :
    linkBefore s target slot = splice s slot (s.prev target) (some target) := by
  unfold linkBefore splice
  rcases hprev : s.prev target with _ | prev <;>
    simp [writePrev, writeNext, NodePool.setLink, setStart, setNext, hprev, next,
      Function.update_of_ne hne]

/-- **Linking** a node at any place. -/
theorem Shape.splice (h : Shape cfg s (as ++ bs) [slot] free) :
    Shape cfg (s.splice slot as.getLast? bs.head?) (as ++ slot :: bs) [] free where
  chain := h.chain.insert h.nodup h.spare_notMem
  apart := by
    have hperm : (as ++ bs ++ [slot]).Perm (as ++ slot :: bs ++ []) := by
      rw [List.append_nil]
      exact (List.perm_append_singleton slot _).trans List.perm_middle.symm
    refine NodePool.Apart.perm (h.apart.congr rfl (fun i hi => ?_) rfl) hperm
    -- the two links written are those of nodes in use
    have hslot : i ≠ slot := by
      rintro rfl
      exact h.apart.notMem (by simp) hi
    have hbefore : as.getLast? ≠ some i := by
      intro hlast
      have hmem := List.mem_of_getLast? hlast
      exact h.apart.notMem (by simp [hmem]) hi
    show setNext _ as.getLast? _ i = _
    rw [setNext_of_ne _ hbefore, Function.update_of_ne hslot]
    rfl

/-- What `unlink_node` writes. -/
theorem unlinkNode_eq (s : DList V) {before after : Option ℕ} (hbefore : s.prev slot = before)
    (hafter : s.next slot = after) (hslot : before ≠ some slot) :
    unlinkNode s slot =
      { s with
        head := setStart s.head before after
        tail := setStart s.tail after before
        prev := Function.update (setNext s.prev after before) slot none
        pool :=
          { s.pool with
            next := Function.update (setNext s.next before after) slot none } } := by
  have hlink : s.pool.next slot = after := hafter
  unfold unlinkNode
  rw [hbefore]
  cases before with
  | none =>
    cases after <;>
      simp [writePrev, writeNext, NodePool.setLink, setStart, setNext, hbefore, hlink, next]
  | some before =>
    have hne : slot ≠ before := fun heq => hslot (congrArg some heq.symm)
    have hkept : (s.writeNext before (s.next slot)).next slot = after := by
      show Function.update s.next before (s.next slot) slot = after
      rw [Function.update_of_ne hne, hafter]
    simp only [hkept]
    cases after <;>
      simp [writePrev, writeNext, NodePool.setLink, setStart, setNext, hbefore, hlink, next]

/-- **Unlinking** a node anywhere. -/
theorem Shape.unlinkNode (h : Shape cfg s (as ++ slot :: bs) [] free) :
    Shape cfg (s.unlinkNode slot) (as ++ bs) [slot] free ∧ (s.unlinkNode slot).size = s.size ∧
      (s.unlinkNode slot).cells = s.cells := by
  have hnodup := h.nodup
  have hslot : slot ∉ as ++ bs := (List.nodup_cons.mp (List.nodup_middle.mp hnodup)).1
  have hbefore : as.getLast? ≠ some slot :=
    getLast?_ne fun hmem => hslot (List.mem_append_left bs hmem)
  have hne : ∀ i ∈ as ++ bs, i ≠ slot := fun i hi heq => hslot (heq ▸ hi)
  have hunlinked := h.chain.unlink hnodup
  rw [unlinkNode_eq s h.chain.prev_eq h.chain.next_eq hbefore]
  refine ⟨⟨hunlinked.congr (fun i hi => ?_) fun i hi => ?_, ?_⟩, rfl, rfl⟩
  · exact Function.update_of_ne (hne i hi) _ _
  · exact Function.update_of_ne (hne i hi) _ _
  · have hperm : (as ++ slot :: bs ++ []).Perm (as ++ bs ++ [slot]) := by
      rw [List.append_nil]
      exact List.perm_middle.trans (List.perm_append_singleton slot _).symm
    refine NodePool.Apart.perm (h.apart.congr rfl (fun i hi => ?_) rfl) hperm
    have hi' : i ≠ slot := by
      rintro rfl
      exact h.apart.notMem (by simp) hi
    have hlast : as.getLast? ≠ some i := by
      intro hlast
      have hmem := List.mem_of_getLast? hlast
      exact h.apart.notMem (by simp [hmem]) hi
    show Function.update (setNext _ as.getLast? _) slot none i = _
    rw [Function.update_of_ne hi', setNext_of_ne _ hlast]
    rfl

/-! ## Between calls -/

/-- The list is `nodes`, and `size_` counts them. -/
structure Inv (cfg : DListConfig V) (s : DList V) (nodes free : List ℕ) : Prop where
  shape : Shape cfg s nodes [] free
  size_eq : s.size = nodes.length

/-- What the operations do is stated for this view. -/
def view (cfg : DListConfig V) (s : DList V) : NodeView V where
  shape nodes := ∃ free, Inv cfg s nodes free
  cells := s.cells

theorem Inv.rounds_le (h : Inv cfg s nodes free) : nodes.length ≤ rounds cfg s := by
  have hle := h.shape.apart.length_le
  rwa [List.append_nil] at hle

/-- **`make_node`** fails and leaves the list alone, or gives a node with the element. -/
theorem makeNode_cases (h : Inv cfg s nodes free) (value : V) :
    (∃ st t, makeNode cfg s value = (.error st, t) ∧ st ≠ .ok ∧ Kept (view cfg s) (view cfg t) nodes ∧
      (cfg.policy.NonFailing → cfg.source.fixedPool = true →
        st = .full ∧ nodes.length = cfg.source.capacity)) ∨
    ∃ slot t free', makeNode cfg s value = (.ok slot, t) ∧ Shape cfg t nodes [slot] free' ∧
      t.size = s.size ∧ (∀ i ∈ nodes, t.cells.contents i = s.cells.contents i) ∧
      (cfg.policy.Faithful → t.cells.contents slot = value) ∧
      ((view cfg s).Holding nodes → t.cells.ledger.Holds (insert slot {i | i ∈ nodes})) ∧
      (cfg.source.fixedPool = true → nodes.length < cfg.source.capacity) := by
  have hlength := h.shape.apart.length_add
  rw [List.append_nil] at hlength
  unfold makeNode
  rcases acquireNode_cases h.shape with
    ⟨st, t, heq, hst, hshape, hsize, hcells, hfull⟩ | ⟨slot, t, free', heq, hshape, hsize, hcells, hfree⟩
  · rw [heq]
    refine .inl ⟨st, t, rfl, hst, ⟨⟨free, hshape, hsize.trans h.size_eq⟩, ?_, ?_⟩, ?_⟩
    · exact fun i _ => congrArg (Cells.contents · i) hcells
    · show (view cfg s).Holding nodes → t.cells.ledger.Holds _
      rw [hcells]
      exact id
    · intro _ hpool
      obtain ⟨rfl, rfl⟩ := hfull hpool
      exact ⟨rfl, hlength hpool⟩
  rw [heq]
  have hnotMem := hshape.spare_notMem
  have hne : ∀ i ∈ nodes, i ≠ slot := fun i hi heq => hnotMem (heq ▸ hi)
  -- the copy to the slot of the new node
  have hcopied := Cells.copied cfg.policy t.cells slot value
  rw [hcells] at hcopied
  have hshape' : Shape cfg { t with cells := (t.cells.copyConstruct cfg.policy slot value).2 } nodes
      [slot] free' := hshape.congr rfl rfl (fun _ _ => rfl) rfl
  rw [hcells] at hshape'
  simp only [hcells]
  by_cases hok : (s.cells.copyConstruct cfg.policy slot value).1 ≠ .ok
  · rw [if_pos hok]
    obtain ⟨free'', hrelease⟩ := hshape'.release
    refine .inl ⟨_, _, rfl, hok, ⟨⟨free'', hrelease, ?_⟩, ?_, ?_⟩, ?_⟩
    · rw [size_releaseNode]
      exact hsize.trans h.size_eq
    · intro i hi
      show (releaseNode cfg _ slot).cells.contents i = _
      rw [cells_releaseNode]
      exact hcopied.frame i (hne i hi)
    · intro hholding
      show (releaseNode cfg _ slot).cells.ledger.Holds _
      rw [cells_releaseNode]
      exact hcopied.failed hok _ hholding hnotMem
    · exact fun hpolicy => absurd (hcopied.ok_of_nonFailing hpolicy) hok
  · rw [if_neg hok]
    rw [not_not] at hok
    refine .inr ⟨slot, _, free', rfl, hshape', hsize, fun i hi => hcopied.frame i (hne i hi),
      hcopied.value hok, fun hholding => hcopied.constructed hok _ hholding hnotMem, ?_⟩
    intro hpool
    have hlen := hlength hpool
    rw [hfree hpool, List.length_cons] at hlen
    omega

end DList

end Memkit
