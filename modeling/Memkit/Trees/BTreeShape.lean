import Memkit.Core.NodeView
import Memkit.Trees.BTree

/-! # The shape of the tree

The links of `btree_map_core` spell out a tree whose nodes are those in use, and the free nodes are
apart from them.

* **`Shape`, `Inv`** — the tree, the nodes in transit between it and the pool, the free ones.
* **`makeNode_cases`** — a node for a new leaf.
* **`findLoop_eq`, `insertNode_eq`, `removeNode_eq`** — the searches end where `locate` says. -/

namespace Memkit

open LinkedTree NodeView

namespace BTree

variable {V : Type*} {cfg : BTreeConfig V} {s u : BTree V} {t tl tr : BinaryTree ℕ}
  {spare free used as bs : List ℕ} {slot : ℕ} {k : Link ℕ}

/-- The tree is `t`; the nodes `spare` are in use but not linked, and `free` is the free list. -/
structure Shape (cfg : BTreeConfig V) (s : BTree V) (t : BinaryTree ℕ) (spare free : List ℕ) :
    Prop where
  spells : Spells s.readLink .root t
  apart : s.pool.Apart cfg.source (inorder t ++ spare) free

/-- The tree is `t`, and `size_` counts its nodes. -/
structure Inv (cfg : BTreeConfig V) (s : BTree V) (t : BinaryTree ℕ) (free : List ℕ) : Prop where
  shape : Shape cfg s t [] free
  size_eq : s.size = (inorder t).length

/-- What the operations do to the nodes in order is stated for this view. -/
def view (cfg : BTreeConfig V) (s : BTree V) : NodeView V where
  shape nodes := ∃ t free, Inv cfg s t free ∧ inorder t = nodes
  cells := s.cells

theorem Shape.nodup (h : Shape cfg s t spare free) : (inorder t).Nodup :=
  (List.nodup_append.mp (List.nodup_append.mp h.apart.nodup).1).1

/-- A node that is not linked is not in the tree. -/
theorem Shape.spare_notMem (h : Shape cfg s t (slot :: spare) free) : slot ∉ inorder t := by
  have hdisj := List.disjoint_of_nodup_append (List.nodup_append.mp h.apart.nodup).1
  exact fun hmem => hdisj hmem List.mem_cons_self

/-- Only the links matter. -/
theorem Shape.congr (h : Shape cfg s t spare free) (hlinks : u.readLink = s.readLink)
    (hpool : u.pool = s.pool) : Shape cfg u t spare free := by
  constructor
  · rw [hlinks]
    exact h.spells
  · rw [hpool]
    exact h.apart

/-- No path of the tree is longer than the bound on the rounds. -/
theorem Inv.height_le (h : Inv cfg s t free) : t.height ≤ rounds cfg s := by
  have hle := h.shape.apart.length_le
  rw [List.append_nil] at hle
  exact (LinkedTree.height_le t).trans hle

/-! ## Links -/

@[simp] theorem readLink_writeLink (s : BTree V) (k : Link ℕ) (node : Option ℕ) :
    (s.writeLink k node).readLink = Function.update s.readLink k node := by
  funext l
  by_cases hl : l = k
  · subst hl
    rw [Function.update_self]
    cases l with
    | root => rfl
    | left owner => exact Function.update_self ..
    | right owner => exact Function.update_self ..
  · rw [Function.update_of_ne hl]
    cases k with
    | root => cases l <;> first | exact absurd rfl hl | rfl
    | left owner =>
      cases l with
      | left i => exact Function.update_of_ne (fun heq => hl (congrArg Link.left heq)) _ _
      | root => rfl
      | right i => rfl
    | right owner =>
      cases l with
      | right i => exact Function.update_of_ne (fun heq => hl (congrArg Link.right heq)) _ _
      | root => rfl
      | left i => rfl

@[simp] theorem size_writeLink (s : BTree V) (k : Link ℕ) (node : Option ℕ) :
    (s.writeLink k node).size = s.size := by
  cases k <;> rfl

@[simp] theorem cells_writeLink (s : BTree V) (k : Link ℕ) (node : Option ℕ) :
    (s.writeLink k node).cells = s.cells := by
  cases k <;> rfl

/-- Writing a link of the root or of a node in use keeps the free list. -/
theorem apart_writeLink (h : s.pool.Apart cfg.source used free)
    (hk : ∀ i, k.owner = some i → i ∈ used) (node : Option ℕ) :
    (s.writeLink k node).pool.Apart cfg.source used free := by
  cases k with
  | root => exact h
  | left owner => exact h.setLink (hk owner rfl) node
  | right owner => exact h

@[simp] theorem size_releaseNode (cfg : BTreeConfig V) (s : BTree V) (slot : ℕ) :
    (releaseNode cfg s slot).size = s.size := by
  unfold releaseNode
  cases cfg.source.fixedPool <;> rfl

@[simp] theorem cells_releaseNode (cfg : BTreeConfig V) (s : BTree V) (slot : ℕ) :
    (releaseNode cfg s slot).cells = s.cells := by
  unfold releaseNode
  cases cfg.source.fixedPool <;> rfl

/-- **`release_node`** ends the use of a node, and changes only its links. -/
theorem release_cases (h : s.pool.Apart cfg.source (slot :: used) free) :
    ∃ free', (releaseNode cfg s slot).pool.Apart cfg.source used free' ∧
      ∀ l, l.owner ≠ some slot → (releaseNode cfg s slot).readLink l = s.readLink l := by
  obtain ⟨free', hapart, hnext⟩ := h.release
  refine ⟨free', ?_, fun l hl => ?_⟩
  · unfold releaseNode
    cases cfg.source.fixedPool <;> exact hapart
  · have hpool : (releaseNode cfg s slot).pool = s.pool.release cfg.source slot := by
      unfold releaseNode
      cases cfg.source.fixedPool <;> rfl
    cases l with
    | root =>
      unfold releaseNode
      cases cfg.source.fixedPool <;> rfl
    | left i =>
      show (releaseNode cfg s slot).pool.next i = s.pool.next i
      rw [hpool]
      exact hnext i fun heq => hl (congrArg some heq)
    | right i =>
      have hi : i ≠ slot := fun heq => hl (congrArg some heq)
      unfold releaseNode
      cases cfg.source.fixedPool
      · rfl
      · exact Function.update_of_ne hi _ _

/-- Releasing a node that is not linked. -/
theorem Shape.release (h : Shape cfg s t [slot] free) :
    ∃ free', Shape cfg (releaseNode cfg s slot) t [] free' := by
  have hslot := h.spare_notMem
  obtain ⟨free', hapart, hlinks⟩ :=
    release_cases (h.apart.perm (List.perm_append_singleton slot (inorder t)))
  refine ⟨free', h.spells.congr (hlinks .root (by simp [Link.owner])) fun l i hi hmem => ?_, ?_⟩
  · refine hlinks l fun heq => hslot ?_
    rw [hi] at heq
    exact Option.some.inj heq ▸ hmem
  · rw [List.append_nil]
    exact hapart

/-! ## New nodes -/

/-- **`acquire_node`** fails and leaves the tree alone, or gives a node with null links. -/
theorem acquireNode_cases (h : Shape cfg s t [] free) :
    (∃ st u, acquireNode cfg s = (.error st, u) ∧ st ≠ .ok ∧ Shape cfg u t [] free ∧
      u.size = s.size ∧ u.cells = s.cells ∧
      (cfg.source.fixedPool = true → st = .full ∧ (inorder t).length = cfg.source.capacity)) ∨
    ∃ slot u free', acquireNode cfg s = (.ok slot, u) ∧ Shape cfg u t [slot] free' ∧
      u.readLink (.left slot) = none ∧ u.readLink (.right slot) = none ∧
      u.size = s.size ∧ u.cells = s.cells ∧
      (cfg.source.fixedPool = true → (inorder t).length < cfg.source.capacity) := by
  have hlength := h.apart.length_add
  have hapart := h.apart
  rw [List.append_nil] at hlength hapart
  unfold acquireNode
  rcases hapart.acquire with
    ⟨st, pool, heq, hst, hnext, hapart', hfull⟩ | ⟨slot, pool, free', heq, hnew, hnext, hapart', hfirst⟩
  · rw [heq]
    have hlinks : BTree.readLink { s with pool := pool } = s.readLink := by
      funext l
      cases l with
      | root => rfl
      | left i => exact congrFun hnext i
      | right i => rfl
    refine .inl ⟨st, _, rfl, hst, ⟨?_, ?_⟩, rfl, rfl, fun hpool => ?_⟩
    · rw [hlinks]
      exact h.spells
    · rw [List.append_nil]
      exact hapart'
    · obtain ⟨rfl, rfl⟩ := hfull hpool
      exact ⟨rfl, hlength hpool⟩
  · rw [heq]
    -- only the links of the node are written
    have hlinks : ∀ l : Link ℕ, l.owner ≠ some slot →
        (({ s with pool := pool } : BTree V).writeLink (.right slot) none).readLink l =
          s.readLink l := by
      intro l hl
      cases l with
      | root => rfl
      | left i =>
        show pool.next i = s.pool.next i
        rw [hnext]
        exact Function.update_of_ne (fun heq => hl (congrArg some heq)) _ _
      | right i => exact Function.update_of_ne (fun heq => hl (congrArg some heq)) _ _
    refine .inr ⟨slot, _, free', rfl, ⟨?_, ?_⟩, ?_, ?_, rfl, rfl, fun hpool => ?_⟩
    · refine h.spells.congr (hlinks .root (by simp [Link.owner])) fun l i hi hmem => ?_
      refine hlinks l fun howner => hnew ?_
      rw [hi] at howner
      exact Option.some.inj howner ▸ hmem
    · exact hapart'.perm (List.perm_append_singleton slot (inorder t)).symm
    · show pool.next slot = none
      rw [hnext, Function.update_self]
    · rw [readLink_writeLink, Function.update_self]
    · have hlen := hlength hpool
      rw [hfirst hpool, List.length_cons] at hlen
      omega

/-- **`make_node`** fails and leaves the tree alone, or gives a node with the element and null
links. -/
theorem makeNode_cases (h : Inv cfg s t free) (elem : V) :
    (∃ st u free', makeNode cfg s elem = (.error st, u) ∧ st ≠ .ok ∧ Inv cfg u t free' ∧
      Kept (view cfg s) (view cfg u) (inorder t) ∧
      (cfg.policy.NonFailing → cfg.source.fixedPool = true →
        st = .full ∧ (inorder t).length = cfg.source.capacity)) ∨
    ∃ slot u free', makeNode cfg s elem = (.ok slot, u) ∧ Shape cfg u t [slot] free' ∧
      u.readLink (.left slot) = none ∧ u.readLink (.right slot) = none ∧ u.size = s.size ∧
      (∀ i ∈ inorder t, u.cells.contents i = s.cells.contents i) ∧
      (cfg.policy.Faithful → u.cells.contents slot = elem) ∧
      ((view cfg s).Holding (inorder t) → u.cells.ledger.Holds (insert slot {i | i ∈ inorder t})) ∧
      (cfg.source.fixedPool = true → (inorder t).length < cfg.source.capacity) := by
  unfold makeNode
  rcases acquireNode_cases h.shape with
    ⟨st, u, heq, hst, hshape, hsize, hcells, hfull⟩ |
    ⟨slot, u, free', heq, hshape, hleft, hright, hsize, hcells, hroom⟩
  · have hinv : Inv cfg u t free := ⟨hshape, hsize.trans h.size_eq⟩
    rw [heq]
    refine .inl ⟨st, u, free, rfl, hst, hinv, ⟨⟨t, free, hinv, rfl⟩, ?_, ?_⟩, fun _ => hfull⟩
    · exact fun i _ => congrFun (congrArg Cells.contents hcells) i
    · intro hholding
      show u.cells.ledger.Holds _
      rw [hcells]
      exact hholding
  rw [heq]
  have hnew := hshape.spare_notMem
  have hne : ∀ i ∈ inorder t, i ≠ slot := by
    rintro i hi rfl
    exact hnew hi
  -- the copy to the slot of the new node
  have hcopied := Cells.copied cfg.policy u.cells slot elem
  have hshape' : Shape cfg
      { u with cells := (u.cells.copyConstruct cfg.policy slot elem).2 } t [slot] free' :=
    hshape.congr (by funext l; cases l <;> rfl) rfl
  by_cases hok : (u.cells.copyConstruct cfg.policy slot elem).1 ≠ .ok
  · simp only [if_pos hok]
    obtain ⟨free'', hrelease⟩ := hshape'.release
    have hinv : Inv cfg (releaseNode cfg
        { u with cells := (u.cells.copyConstruct cfg.policy slot elem).2 } slot) t free'' := by
      refine ⟨hrelease, ?_⟩
      rw [size_releaseNode]
      exact hsize.trans h.size_eq
    refine .inl ⟨_, _, free'', rfl, hok, hinv, ⟨⟨t, free'', hinv, rfl⟩, ?_, ?_⟩, ?_⟩
    · intro i hi
      show (releaseNode cfg _ slot).cells.contents i = _
      rw [cells_releaseNode, hcopied.frame i (hne i hi), hcells]
      rfl
    · intro hholding
      show (releaseNode cfg _ slot).cells.ledger.Holds _
      rw [cells_releaseNode]
      exact hcopied.failed hok _ (hcells ▸ hholding) hnew
    · exact fun hpolicy => absurd (hcopied.ok_of_nonFailing hpolicy) hok
  · simp only [if_neg hok]
    rw [not_not] at hok
    refine .inr ⟨slot, _, free', rfl, hshape', hleft, hright, hsize, ?_, hcopied.value hok, ?_, hroom⟩
    · intro i hi
      rw [hcopied.frame i (hne i hi), hcells]
    · exact fun hholding => hcopied.constructed hok _ (hcells ▸ hholding) hnew

/-! ## Searching -/

section Search

variable {n : ℕ}

/-- Where a search for `key` turns at a node. -/
def direction (cfg : BTreeConfig V) (s : BTree V) (key : V) (node : ℕ) : ℤ :=
  cfg.compare key (s.cells.contents node)

/-- **The loop of `find_node`** gives the node where the search ends. -/
theorem findLoop_eq (cfg : BTreeConfig V) (key : V) (h : Spells s.readLink k t)
    (hn : t.height ≤ n) :
    findLoop cfg s key n (s.readLink k) =
      some (s.readLink (locate (direction cfg s key) k t).1) := by
  refine h.search (F := fun n k => findLoop cfg s key n (s.readLink k))
    (G := fun k => some (s.readLink k)) ?_ ?_ ?_ hn
  · intro n k hnull
    rw [hnull]
    cases n <;> rfl
  · intro n k a hroot hzero
    rw [hroot]
    exact if_pos hzero
  · intro n k a hroot hzero
    rw [hroot, apply_ite s.readLink]
    exact if_neg hzero

/-- **`insert_node`** does at the end of the search what it does. -/
theorem insertNode_eq (cfg : BTreeConfig V) (key : V) (h : Spells s.readLink k t)
    (hn : t.height ≤ n) :
    insertNode cfg s key n k = insertNode cfg s key 0 (locate (direction cfg s key) k t).1 := by
  refine h.search ?_ ?_ ?_ hn
  · intro n k hnull
    rw [insertNode, insertNode, hnull]
  · intro n k a hroot hzero
    rw [insertNode, insertNode, hroot]
    simp only [if_pos (show cfg.compare key (s.cells.contents a) = 0 from hzero)]
  · intro n k a hroot hzero
    rw [insertNode, hroot]
    exact if_neg hzero

/-- **`remove_node`** does at the end of the search what it does. -/
theorem removeNode_eq (cfg : BTreeConfig V) (key : V) (h : Spells s.readLink k t)
    (hn : t.height ≤ n) :
    removeNode cfg s key n k = removeNode cfg s key 0 (locate (direction cfg s key) k t).1 := by
  refine h.search ?_ ?_ ?_ hn
  · intro n k hnull
    rw [removeNode, removeNode, hnull]
  · intro n k a hroot hzero
    rw [removeNode, removeNode, hroot]
    simp only [if_pos (show cfg.compare key (s.cells.contents a) = 0 from hzero)]
  · intro n k a hroot hzero
    rw [removeNode, hroot]
    exact if_neg hzero

/-- The link where the recursion of `insert_node` and `remove_node` ends. -/
def endLink (cfg : BTreeConfig V) (s : BTree V) (key : V) : ℕ → Link ℕ → Link ℕ
  | rounds, link =>
    match s.readLink link with
    | none => link
    | some node =>
      let cmp := cfg.compare key (s.cells.contents node)
      if cmp = 0 then link
      else
        match rounds with
        | 0 => link
        | rounds + 1 => endLink cfg s key rounds (if cmp < 0 then .left node else .right node)

/-- The recursion ends where `locate` says. -/
theorem endLink_eq (cfg : BTreeConfig V) (key : V) (h : Spells s.readLink k t) (hn : t.height ≤ n) :
    endLink cfg s key n k = (locate (direction cfg s key) k t).1 := by
  refine h.search (F := endLink cfg s key) (G := id) ?_ ?_ ?_ hn
  · intro n k hnull
    rw [endLink, hnull]
    rfl
  · intro n k a hroot hzero
    rw [endLink, hroot]
    exact if_pos hzero
  · intro n k a hroot hzero
    rw [endLink, hroot]
    exact if_neg hzero

end Search

end BTree

end Memkit
