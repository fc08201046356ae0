import Memkit.Trees.BTreeShape

/-! # The operations of the tree

What each operation of `btree_map_core` does to the nodes in order, whatever the copies return.

* **`insert_cases`** — an equivalent element is replaced, or a leaf added where the search ends.
* **`remove_cases`** — the node where the search ends is taken out, or, if it has two children, it
  takes over the element of its successor, which is taken out.
* **`clear_cases`** — all nodes are given back.
* **`traverseNode_eq`, `walkLoop_left`, `walkLoop_right`** — what the reading operations see. -/

namespace Memkit

open LinkedTree NodeView

namespace BTree

variable {V : Type*} {cfg : BTreeConfig V} {s u : BTree V} {t tl tr sub : BinaryTree ℕ}
  {spare free used as bs : List ℕ} {a slot : ℕ} {k : Link ℕ} {n : ℕ}

/-- The nodes before and behind the end of a search. -/
structure Around (dir : ℕ → ℤ) (as bs : List ℕ) : Prop where
  before : ∀ i ∈ as, 0 < dir i
  behind : ∀ i ∈ bs, dir i < 0

/-! ## Links that change -/

theorem readLink_withCells (s : BTree V) (cells : Cells ℕ V) :
    BTree.readLink { s with cells := cells } = s.readLink := by
  funext l
  cases l <;> rfl

theorem Shape.withSize (h : Shape cfg s t spare free) (size : ℕ) :
    Shape cfg { s with size := size } t spare free :=
  h.congr (by funext l; cases l <;> rfl) rfl

theorem Shape.withCells (h : Shape cfg s t spare free) (cells : Cells ℕ V) :
    Shape cfg { s with cells := cells } t spare free :=
  h.congr (readLink_withCells s cells) rfl

/-- The link where a subtree hangs is the root or a link of a node in use. -/
theorem owner_mem (hfocus : Focus .root t k sub as bs) (hsub : ∀ i ∈ as ++ bs, i ∈ used) :
    ∀ i, k.owner = some i → i ∈ used := by
  intro i hi
  rcases hfocus.owner with rfl | ⟨j, hj, hjk⟩
  · cases hi
  · rw [hi] at hjk
    exact Option.some.inj hjk ▸ hsub j hj

/-- **Linking** a node at a null link. -/
theorem Shape.addLeaf (h : Shape cfg s t [slot] free) (hfocus : Focus .root t k .nil as bs)
    (hleft : s.readLink (.left slot) = none) (hright : s.readLink (.right slot) = none) :
    ∃ t', Shape cfg (s.writeLink k (some slot)) t' [] free ∧ inorder t' = as ++ slot :: bs := by
  have hinorder : inorder t = as ++ bs := by simpa using hfocus.inorder_eq
  have hslot := h.spare_notMem
  -- the links of the new node are not the one that is written
  have hne : ∀ l : Link ℕ, l ≠ .root → l.owner = some slot → l ≠ k := by
    refine fun l hroot howner => hfocus.ne hroot fun i hi heq => hslot ?_
    rw [howner] at heq
    rw [hinorder]
    exact Option.some.inj heq ▸ hi
  have hlink : (s.writeLink k (some slot)).readLink k = some slot := by
    rw [readLink_writeLink, Function.update_self]
  obtain ⟨t', hspells, hinorder'⟩ := hfocus.addLeaf h.spells h.nodup hslot hlink
    (by rw [readLink_writeLink, Function.update_of_ne (hne _ (by simp) rfl), hleft])
    (by rw [readLink_writeLink, Function.update_of_ne (hne _ (by simp) rfl), hright])
    fun l hl _ => by rw [readLink_writeLink, Function.update_of_ne hl]
  refine ⟨t', ⟨hspells, ?_⟩, hinorder'⟩
  have hperm : (inorder t ++ [slot]).Perm (inorder t' ++ []) := by
    rw [hinorder, hinorder', List.append_nil]
    exact (List.perm_append_singleton slot _).trans List.perm_middle.symm
  refine apart_writeLink (h.apart.perm hperm) (owner_mem hfocus fun i hi => ?_) _
  rw [hinorder', List.append_nil]
  simp only [List.mem_append, List.mem_cons] at hi ⊢
  tauto

/-- **Unlinking** a node with at most one child. -/
theorem Shape.takeOut (h : Shape cfg s t [] free) (hfocus : Focus .root t k (.node a tl tr) as bs)
    {child : Option ℕ}
    (hsub : (tl = .nil ∧ sub = tr ∧ child = s.right a) ∨ (tr = .nil ∧ sub = tl ∧ child = s.left a)) :
    ∃ t', Shape cfg (s.writeLink k child) t' [a] free ∧ inorder t' = as ++ inorder sub ++ bs := by
  have hinorder := hfocus.inorder_eq
  have hlink : (s.writeLink k child).readLink k = child := by
    rw [readLink_writeLink, Function.update_self]
  have hsub' : (tl = .nil ∧ sub = tr ∧ (s.writeLink k child).readLink k = s.readLink (.right a)) ∨
      (tr = .nil ∧ sub = tl ∧ (s.writeLink k child).readLink k = s.readLink (.left a)) := by
    rw [hlink]
    exact hsub
  obtain ⟨t', hspells, hinorder'⟩ := hfocus.takeOut h.spells h.nodup hsub' fun l hl => by
    rw [readLink_writeLink, Function.update_of_ne hl]
  refine ⟨t', ⟨hspells, ?_⟩, hinorder'⟩
  have hnodes : inorder tl ++ a :: inorder tr = [] ++ a :: inorder sub ∨
      inorder tl ++ a :: inorder tr = inorder sub ++ a :: [] := by
    rcases hsub with ⟨rfl, rfl, -⟩ | ⟨rfl, rfl, -⟩
    · exact .inl rfl
    · exact .inr rfl
  have hperm : (inorder t ++ []).Perm (inorder t' ++ [a]) := by
    rw [hinorder, hinorder', List.append_nil, inorder_node]
    refine List.Perm.trans ?_ (List.perm_append_singleton a _).symm
    rcases hnodes with heq | heq <;> rw [heq]
    · exact (List.Perm.append_right bs List.perm_middle)
    · refine List.Perm.append_right bs ((List.Perm.append_left as ?_).trans List.perm_middle)
      exact List.perm_append_singleton a _
  refine apart_writeLink (h.apart.perm hperm) (owner_mem hfocus fun i hi => ?_) _
  rw [hinorder']
  simp only [List.mem_append] at hi ⊢
  tauto

/-! ## Inserting -/

/-- `size_` counts a node inserted. -/
def countInserted (r : (Status × Bool) × BTree V) : BTree V :=
  if r.1.1 = .ok ∧ r.1.2 then { r.2 with size := r.2.size + 1 } else r.2

/-- **Inserting at a null link** adds a leaf there. -/
theorem insertHere_cases (h : Inv cfg s t free) (hfocus : Focus .root t k .nil as bs) (elem : V) :
    Inserts cfg.policy cfg.source (view cfg s)
      (view cfg (countInserted (insertHere cfg s k elem))) elem as bs (insertHere cfg s k elem).1.1 := by
  have hinorder : inorder t = as ++ bs := by simpa using hfocus.inorder_eq
  unfold insertHere
  rcases makeNode_cases h elem with
    ⟨st, u, -, heq, hst, -, hkept, hfull⟩ |
    ⟨slot, u, free', heq, hshape, hleft, hright, hsize, hcontents, hvalue, hholds, hroom⟩
  · have hcount : countInserted ((st, false), u) = u := if_neg (by simp)
    rw [heq]
    rw [hinorder] at hkept hfull
    show Inserts _ _ _ (view cfg (countInserted ((st, false), u))) elem as bs st
    rw [hcount]
    exact .inl ⟨hst, hkept, hfull⟩
  · have hcount : countInserted ((.ok, true), u.writeLink k (some slot)) =
        { u.writeLink k (some slot) with size := (u.writeLink k (some slot)).size + 1 } :=
      if_pos ⟨rfl, rfl⟩
    obtain ⟨t', hshape', hinorder'⟩ := hshape.addLeaf hfocus hleft hright
    rw [hinorder] at hcontents hholds hroom
    rw [heq]
    show Inserts _ _ _ (view cfg (countInserted ((.ok, true), u.writeLink k (some slot)))) elem as bs
      .ok
    rw [hcount]
    refine .inr ⟨slot, rfl, ⟨⟨t', free', ⟨hshape'.withSize _, ?_⟩, hinorder'⟩, ?_, ?_, ?_⟩, hroom⟩
    · show (u.writeLink k (some slot)).size + 1 = _
      rw [size_writeLink, hsize, h.size_eq, hinorder, hinorder']
      simp only [List.length_append, List.length_cons]
      omega
    · intro i hi
      show (u.writeLink k (some slot)).cells.contents i = _
      rw [cells_writeLink]
      exact hcontents i hi
    · intro hfaithful
      show (u.writeLink k (some slot)).cells.contents slot = _
      rw [cells_writeLink]
      exact hvalue hfaithful
    · intro hholding
      show (u.writeLink k (some slot)).cells.ledger.Holds {i | i ∈ as ++ slot :: bs}
      rw [cells_writeLink, Ledger.setOf_mem_insert]
      exact hholds hholding

theorem insert_some (cfg : BTreeConfig V) (s : BTree V) (elem : V) :
    BTree.insert cfg s (some elem) =
      (insertNode cfg s elem (rounds cfg s) .root).map fun r => (r.1.1, countInserted r) := rfl

/-- **`insert`** at the end of its search adds a leaf, or replaces the element of the node there. -/
theorem insert_at (h : Inv cfg s t free) {elem : V} (hfocus : Focus .root t k sub as bs)
    (hlocate : locate (direction cfg s elem) .root t = (k, sub)) :
    (sub = .nil → BTree.insert cfg s (some elem) =
      some ((insertHere cfg s k elem).1.1, countInserted (insertHere cfg s k elem))) ∧
    ∀ slot tl tr, sub = .node slot tl tr → direction cfg s elem slot = 0 →
      BTree.insert cfg s (some elem) =
        some (.ok, { s with cells := s.cells.copyAssign cfg.policy slot elem }) := by
  have heq := insertNode_eq cfg elem h.shape.spells h.height_le
  have hspells := hfocus.spells h.shape.spells
  rw [hlocate] at heq
  rw [insert_some, heq, insertNode]
  constructor
  · rintro rfl
    have hnull : s.readLink k = none := hspells
    rw [hnull]
    rfl
  · rintro slot tl tr rfl hzero
    have hcmp : cfg.compare elem (s.cells.contents slot) = 0 := hzero
    rw [hspells.1]
    simp only [if_pos hcmp, Option.map_some]
    rw [countInserted, if_neg (by simp)]

/-- **`insert`** adds a leaf, or replaces the element of a node that is equivalent. -/
theorem insert_cases (h : Inv cfg s t free) {elem : V}
    (hgraded : Graded (direction cfg s elem) (inorder t)) :
    ∃ as bs st u, BTree.insert cfg s (some elem) = some (st, u) ∧
      Around (direction cfg s elem) as bs ∧
      ((inorder t = as ++ bs ∧ Inserts cfg.policy cfg.source (view cfg s) (view cfg u) elem as bs st) ∨
        ∃ slot, inorder t = as ++ slot :: bs ∧ direction cfg s elem slot = 0 ∧ st = .ok ∧
          u = { s with cells := s.cells.copyAssign cfg.policy slot elem }) := by
  obtain ⟨as, bs, hfocus, has, hbs, hend⟩ := locate_focus hgraded .root
  obtain ⟨hleaf, hover⟩ := insert_at h hfocus rfl
  generalize (locate (direction cfg s elem) .root t).1 = k at hfocus hleaf
  generalize (locate (direction cfg s elem) .root t).2 = sub at hfocus hend hleaf hover
  have hinorder := hfocus.inorder_eq
  rcases hend with rfl | ⟨slot, tl, tr, rfl, hzero, htl, htr⟩
  · have hinorder : inorder t = as ++ bs := by simpa using hinorder
    exact ⟨as, bs, _, _, hleaf rfl, ⟨has, hbs⟩, .inl ⟨hinorder, insertHere_cases h hfocus elem⟩⟩
  · rw [inorder_node] at hinorder
    refine ⟨as ++ inorder tl, inorder tr ++ bs, _, _, hover slot tl tr rfl hzero, ⟨?_, ?_⟩,
      .inr ⟨slot, by simp [hinorder], hzero, rfl, rfl⟩⟩
    · exact fun i hi => (List.mem_append.mp hi).elim (has i) (htl i)
    · exact fun i hi => (List.mem_append.mp hi).elim (htr i) (hbs i)

/-! ## Removing -/

theorem destroyNodeValue_eq (cfg : BTreeConfig V) (s : BTree V) (slot : ℕ) :
    destroyNodeValue cfg s slot =
      { s with cells := s.cells.destroyIf cfg.needsDestroy cfg.policy slot } := by
  unfold destroyNodeValue Cells.destroyIf
  split <;> rfl

/-- Destroying an element leaves the links alone. -/
theorem Shape.destroyNodeValue (h : Shape cfg s t spare free) (slot : ℕ) :
    Shape cfg (destroyNodeValue cfg s slot) t spare free := by
  rw [destroyNodeValue_eq]
  exact h.withCells _

@[simp] theorem size_destroyNodeValue (cfg : BTreeConfig V) (s : BTree V) (slot : ℕ) :
    (destroyNodeValue cfg s slot).size = s.size := by
  rw [destroyNodeValue_eq]

/-- Destroying an element leaves the others alone. -/
theorem contents_destroyNodeValue {i : ℕ} (hi : i ≠ slot) :
    (destroyNodeValue cfg s slot).cells.contents i = s.cells.contents i := by
  rw [destroyNodeValue_eq]
  exact Cells.destroyIf_of_ne hi

/-- If there is need, the object of the node ends. -/
theorem ledger_destroyNodeValue (hneeds : cfg.needsDestroy = true) :
    (destroyNodeValue cfg s slot).cells.ledger = s.cells.ledger.destroy slot := by
  rw [destroyNodeValue_eq]
  exact Cells.ledger_destroyIf hneeds

/-- `size_` counts a node removed. -/
def countRemoved (r : (Status × Bool) × BTree V) : BTree V :=
  if r.1.2 then { r.2 with size := r.2.size - 1 } else r.2

/-- The end of a removal: destroy the element of a node that is not linked any more and release
it. -/
def dropNode (cfg : BTreeConfig V) (s : BTree V) (slot : ℕ) : BTree V :=
  let s := releaseNode cfg (destroyNodeValue cfg s slot) slot
  { s with size := s.size - 1 }

/-- Dropping a node keeps the others. -/
theorem dropNode_spec (h : Shape cfg s t [slot] free) (hsize : s.size = (inorder t).length + 1) :
    (∃ free', Inv cfg (dropNode cfg s slot) t free') ∧
      (∀ i, i ≠ slot → (dropNode cfg s slot).cells.contents i = s.cells.contents i) ∧
      (cfg.needsDestroy = true →
        (dropNode cfg s slot).cells.ledger = s.cells.ledger.destroy slot) := by
  obtain ⟨free', hreleased⟩ := (h.destroyNodeValue slot).release
  refine ⟨⟨free', hreleased.withSize _, ?_⟩, fun i hi => ?_, fun hneeds => ?_⟩
  · show (releaseNode cfg _ slot).size - 1 = _
    rw [size_releaseNode, size_destroyNodeValue, hsize, Nat.add_sub_cancel]
  · show (releaseNode cfg _ slot).cells.contents i = _
    rw [cells_releaseNode]
    exact contents_destroyNodeValue hi
  · show (releaseNode cfg _ slot).cells.ledger = _
    rw [cells_releaseNode, ledger_destroyNodeValue hneeds]

/-- **Removing a node with at most one child** takes it out. -/
theorem spliceTarget_cases (h : Inv cfg s t free) (hfocus : Focus .root t k (.node a tl tr) as bs)
    (hone : ¬ (s.left a ≠ none ∧ s.right a ≠ none)) :
    (spliceTarget cfg s k a).1 = (.ok, true) ∧
      Removed cfg.policy cfg.needsDestroy (view cfg s)
        (view cfg (countRemoved (spliceTarget cfg s k a))) (as ++ inorder tl) (inorder tr ++ bs) a
        none := by
  obtain ⟨-, hl, hr⟩ := hfocus.spells h.shape.spells
  have hinorder := hfocus.inorder_eq
  have hnodup := h.shape.nodup
  -- the subtree that takes the place of the node
  obtain ⟨sub, hsub, hnodes⟩ : ∃ sub,
      ((tl = .nil ∧ sub = tr ∧
          (if s.left a ≠ none then s.left a else s.right a) = s.right a) ∨
        (tr = .nil ∧ sub = tl ∧
          (if s.left a ≠ none then s.left a else s.right a) = s.left a)) ∧
        inorder sub = inorder tl ++ inorder tr := by
    by_cases hleft : s.left a = none
    · have hnil : tl = .nil := hl.eq_none_iff.mp hleft
      refine ⟨tr, .inl ⟨hnil, rfl, if_neg (not_not.mpr hleft)⟩, ?_⟩
      rw [hnil]
      rfl
    · have hright : s.right a = none := by
        by_contra hne
        exact hone ⟨hleft, hne⟩
      have hnil : tr = .nil := hr.eq_none_iff.mp hright
      refine ⟨tl, .inr ⟨hnil, rfl, if_pos hleft⟩, ?_⟩
      rw [hnil]
      exact (List.append_nil _).symm
  obtain ⟨t', hshape, hinorder'⟩ := h.shape.takeOut hfocus hsub
  rw [hnodes] at hinorder'
  rw [inorder_node] at hinorder
  have hnotMem : a ∉ (as ++ inorder tl) ++ (inorder tr ++ bs) := by
    have hmiddle : inorder t = (as ++ inorder tl) ++ a :: (inorder tr ++ bs) := by simp [hinorder]
    rw [hmiddle] at hnodup
    exact (List.nodup_cons.mp (List.nodup_middle.mp hnodup)).1
  obtain ⟨⟨free', hinv⟩, hcontents, hledger⟩ := dropNode_spec hshape (by
    rw [size_writeLink, h.size_eq, hinorder, hinorder']
    simp only [List.length_append, List.length_cons]
    omega)
  have hcount : countRemoved (spliceTarget cfg s k a) =
      dropNode cfg (s.writeLink k (if s.left a ≠ none then s.left a else s.right a)) a := rfl
  refine ⟨rfl, ?_⟩
  rw [hcount]
  refine ⟨⟨t', free', hinv, by simp [hinorder']⟩, fun i hi => ?_, fun hneeds _ hholding => ?_⟩
  · have hne : i ≠ a := by
      rintro rfl
      exact hnotMem hi
    show (dropNode cfg _ a).cells.contents i = _
    rw [hcontents i hne, cells_writeLink]
    rfl
  · show (dropNode cfg _ a).cells.ledger.Holds _
    rw [hledger hneeds, cells_writeLink]
    exact Ledger.Holds.destroy_mem hholding hnotMem

/-- **The loop for the successor** walks to the leftmost node. -/
theorem succLinkLoop_eq (h : Spells s.readLink k (.node a tl tr)) (hn : tl.height ≤ n) :
    succLinkLoop s n k = some (leftmost k a tl tr).1 ∧
      s.readLink (leftmost k a tl tr).1 = some (leftmost k a tl tr).2.1 := by
  induction tl generalizing k a tr n with
  | nil =>
    obtain ⟨hroot, hl, -⟩ := h
    have hnull : s.left a = none := hl
    rw [succLinkLoop, hroot]
    simp only [hnull]
    exact ⟨rfl, hroot⟩
  | node b tl' tr' ih _ =>
    obtain ⟨hroot, hl, -⟩ := h
    have hleft : s.left a = some b := hl.1
    rw [BinaryTree.height] at hn
    cases n with
    | zero => cases hn
    | succ n =>
      have hmax := max_le_iff.mp (Nat.le_of_succ_le_succ hn)
      rw [succLinkLoop, hroot]
      simp only [hleft]
      exact ih hl hmax.1

/-- The target of a removal took over the element of its successor `succ`, which was taken out of the
nodes behind it. -/
structure TookOver (policy : ElementPolicy V) (v v' : NodeView V) (as bs : List ℕ)
    (target succ : ℕ) : Prop where
  shape : v'.shape (as ++ target :: bs)
  contents : ∀ i ∈ as ++ bs, v'.cells.contents i = v.cells.contents i
  value : policy.Faithful → v'.cells.contents target = v.cells.contents succ

/-- A removal failed, and the nodes are as they were; the element of the target was written to. -/
structure Restored (policy : ElementPolicy V) (v v' : NodeView V) (nodes : List ℕ) (target : ℕ) :
    Prop where
  shape : v'.shape nodes
  contents : ∀ i, i ≠ target → v'.cells.contents i = v.cells.contents i
  may_fail : ¬ policy.NonFailing

/-- **A copy that fails** in the removal of a node with two children: the successor is linked again. -/
theorem replaceBySuccessor_undone {sl : Link ℕ} {succ : ℕ} (hread : s.readLink sl = some succ)
    (hfailed : (replaceBySuccessor cfg s a succ sl).1.1 ≠ .ok) :
    (replaceBySuccessor cfg s a succ sl).2.readLink = s.readLink ∧
      (replaceBySuccessor cfg s a succ sl).2.size = s.size ∧
      (∀ used free, s.pool.Apart cfg.source used free → succ ∈ used →
        (∀ i, sl.owner = some i → i ∈ used) →
        (replaceBySuccessor cfg s a succ sl).2.pool.Apart cfg.source used free) ∧
      (replaceBySuccessor cfg s a succ sl).1.1 =
        (s.cells.copyConstruct cfg.policy a (s.cells.contents succ)).1 ∧
      (replaceBySuccessor cfg s a succ sl).2.cells =
        (s.cells.copyConstruct cfg.policy a (s.cells.contents succ)).2 := by
  unfold replaceBySuccessor at hfailed ⊢
  dsimp only at hfailed ⊢
  rw [cells_writeLink] at hfailed ⊢
  generalize hcopy : s.cells.copyConstruct cfg.policy a (s.cells.contents succ) = r
    at hfailed ⊢
  by_cases hst : r.1 ≠ .ok
  swap
  · rw [if_neg hst] at hfailed
    exact absurd rfl hfailed
  rw [if_pos hst]
  refine ⟨?_, ?_, fun used free hapart hsucc howner => ?_, rfl, ?_⟩
  · -- both links hold what they held before
    rw [readLink_writeLink, readLink_writeLink, readLink_withCells, readLink_writeLink]
    funext l
    by_cases hl : l = sl
    · rw [hl, Function.update_self]
      exact hread.symm
    rw [Function.update_of_ne hl]
    by_cases hl' : l = .right succ
    · rw [hl', Function.update_self]
      rfl
    · rw [Function.update_of_ne hl', Function.update_of_ne hl]
  · rw [size_writeLink, size_writeLink]
    exact size_writeLink s sl _
  · refine apart_writeLink (apart_writeLink ?_ (fun i hi => ?_) _) howner _
    · exact apart_writeLink hapart howner (s.right succ)
    · exact Option.some.inj hi ▸ hsucc
  · rw [cells_writeLink, cells_writeLink]

/-- **Removing a node with two children** unlinks its successor, or links it again if the copy
fails. -/
theorem replaceBySuccessor_cases (h : Inv cfg s t free)
    (hfocus : Focus .root t k (.node a tl tr) as bs) {sl : Link ℕ} {succ : ℕ} {sr : BinaryTree ℕ}
    {cs : List ℕ} (hsucc : Focus (.right a) tr sl (.node succ .nil sr) [] cs) :
    ((replaceBySuccessor cfg s a succ sl).1.1 ≠ .ok ∧
        Restored cfg.policy (view cfg s) (view cfg (replaceBySuccessor cfg s a succ sl).2) (inorder t)
          a) ∨
      ((replaceBySuccessor cfg s a succ sl).1 = (.ok, true) ∧
        inorder tr ++ bs = succ :: (inorder sr ++ cs ++ bs) ∧
        TookOver cfg.policy (view cfg s)
          (view cfg (countRemoved (replaceBySuccessor cfg s a succ sl))) (as ++ inorder tl)
          (inorder sr ++ cs ++ bs) a succ) := by
  have hbelow : Focus k (.node a tl tr) sl (.node succ .nil sr) (inorder tl ++ [a]) cs :=
    .right hsucc
  have hwhole := hfocus.trans hbelow
  have hinorder := hfocus.inorder_eq
  have hright : inorder tr = succ :: inorder sr ++ cs := by simpa using hsucc.inorder_eq
  have hnodup := h.shape.nodup
  have hmiddle : inorder t = (as ++ inorder tl ++ [a]) ++ succ :: (inorder sr ++ cs ++ bs) := by
    rw [hinorder, inorder_node, hright]
    simp
  have hnotMem : succ ∉ (as ++ inorder tl ++ [a]) ++ (inorder sr ++ cs ++ bs) := by
    rw [hmiddle] at hnodup
    exact (List.nodup_cons.mp (List.nodup_middle.mp hnodup)).1
  have hnotMem' : a ∉ (as ++ inorder tl) ++ (inorder sr ++ cs ++ bs) := by
    have hmiddle' : inorder t = (as ++ inorder tl) ++ a :: succ :: (inorder sr ++ cs ++ bs) := by
      rw [hmiddle]
      simp
    rw [hmiddle'] at hnodup
    have hout := (List.nodup_cons.mp (List.nodup_middle.mp hnodup)).1
    refine fun hmem => hout ?_
    simp only [List.mem_append, List.mem_cons] at hmem ⊢
    tauto
  by_cases hfailed : (replaceBySuccessor cfg s a succ sl).1.1 ≠ .ok
  · obtain ⟨hlinks, hsize, hpool, hst, hcells⟩ :=
      replaceBySuccessor_undone (hwhole.spells h.shape.spells).1 hfailed
    have hcopied := Cells.copied cfg.policy s.cells a (s.cells.contents succ)
    have howner : ∀ i, sl.owner = some i → i ∈ inorder t ++ [] := by
      refine owner_mem hwhole fun i hi => ?_
      rw [List.append_nil, hmiddle]
      simp only [List.mem_append, List.mem_cons] at hi ⊢
      tauto
    refine .inl ⟨hfailed, ⟨t, free, ⟨⟨?_, ?_⟩, hsize.trans h.size_eq⟩, rfl⟩, fun i hi => ?_,
      fun hpolicy => ?_⟩
    · rw [hlinks]
      exact h.shape.spells
    · exact hpool _ _ h.shape.apart (by rw [hmiddle]; simp) howner
    · exact (congrFun (congrArg Cells.contents hcells) i).trans (hcopied.frame i hi)
    · exact hfailed (hst.trans (hcopied.ok_of_nonFailing hpolicy))
  -- the tree without the successor
  obtain ⟨t', hshape, hinorder'⟩ := h.shape.takeOut hwhole (.inl ⟨rfl, rfl, rfl⟩)
  have hcopied := Cells.copied cfg.policy (s.writeLink sl (s.right succ)).cells a
    ((s.writeLink sl (s.right succ)).cells.contents succ)
  by_cases hok : ((s.writeLink sl (s.right succ)).cells.copyConstruct cfg.policy a
      ((s.writeLink sl (s.right succ)).cells.contents succ)).1 ≠ .ok
  · have hfails : (replaceBySuccessor cfg s a succ sl).1.1 ≠ .ok := by
      unfold replaceBySuccessor
      dsimp only
      rw [if_pos hok]
      exact hok
    exact absurd hfails hfailed
  · rw [not_not] at hok
    have heq : replaceBySuccessor cfg s a succ sl = ((.ok, true),
        releaseNode cfg (destroyNodeValue cfg { s.writeLink sl (s.right succ) with
          cells := ((s.writeLink sl (s.right succ)).cells.copyConstruct cfg.policy a
            ((s.writeLink sl (s.right succ)).cells.contents succ)).2 } succ) succ) :=
      if_neg (not_not.mpr hok)
    obtain ⟨⟨free', hinv⟩, hcontents, -⟩ := dropNode_spec (hshape.withCells
      ((s.writeLink sl (s.right succ)).cells.copyConstruct cfg.policy a
        ((s.writeLink sl (s.right succ)).cells.contents succ)).2) (by
      show (s.writeLink sl (s.right succ)).size = _
      rw [size_writeLink, h.size_eq, hmiddle, hinorder']
      simp only [List.length_append, List.length_cons]
      omega)
    rw [heq]
    refine .inr ⟨rfl, by rw [hright]; simp, ⟨t', free', hinv, by simp [hinorder']⟩, ?_, ?_⟩
    · intro i hi
      have hne : i ≠ succ := by
        rintro rfl
        refine hnotMem ?_
        simp only [List.mem_append, List.mem_cons] at hi ⊢
        tauto
      have hne' : i ≠ a := by
        rintro rfl
        exact hnotMem' hi
      refine (hcontents i hne).trans ((hcopied.frame i hne').trans ?_)
      rw [cells_writeLink]
      rfl
    · intro hfaithful
      have hne : a ≠ succ := by
        rintro rfl
        refine hnotMem ?_
        simp
      refine (hcontents a hne).trans ((hcopied.value hok hfaithful).trans ?_)
      rw [cells_writeLink]
      rfl

/-- What a removal that found the node `slot` between `as` and `bs` did. -/
def Removes (cfg : BTreeConfig V) (s u : BTree V) (as bs : List ℕ) (slot : ℕ) (st : Status) : Prop :=
  (¬ (s.left slot ≠ none ∧ s.right slot ≠ none) ∧ st = .ok ∧
    Removed cfg.policy cfg.needsDestroy (view cfg s) (view cfg u) as bs slot none) ∨
  (s.left slot ≠ none ∧ s.right slot ≠ none ∧ st ≠ .ok ∧
    Restored cfg.policy (view cfg s) (view cfg u) (as ++ slot :: bs) slot) ∨
  ∃ succ cs, s.left slot ≠ none ∧ s.right slot ≠ none ∧ bs = succ :: cs ∧ st = .ok ∧
    TookOver cfg.policy (view cfg s) (view cfg u) as cs slot succ

/-- **The successor** of a target with two children, behind the link that the loop finds, is the
first node of the right subtree. -/
theorem successor_cases (h : Inv cfg s t free) (hfocus : Focus .root t k (.node a tl tr) as bs)
    (hright : s.right a ≠ none) :
    ∃ sl succ sr cs, succLinkLoop s (rounds cfg s) (.right a) = some sl ∧
      s.readLink sl = some succ ∧ Focus (.right a) tr sl (.node succ .nil sr) [] cs := by
  obtain ⟨-, -, hr⟩ := hfocus.spells h.shape.spells
  have hinorder := hfocus.inorder_eq
  cases tr with
  | nil => exact absurd hr hright
  | node b tl' tr' =>
    have hheight : tl'.height ≤ rounds cfg s := by
      have hle := LinkedTree.height_le tl'
      have hlength := h.shape.apart.length_le
      rw [hinorder] at hlength
      simp only [inorder_node, List.length_append, List.length_cons] at hlength
      unfold rounds
      omega
    obtain ⟨hloop, hread⟩ := succLinkLoop_eq hr hheight
    obtain ⟨cs, hsucc⟩ := leftmost_focus (.right a) b tl' tr'
    exact ⟨_, _, _, cs, hloop, hread, hsucc⟩

/-- **`remove_node`** at the node it found. -/
theorem removeTarget_cases (h : Inv cfg s t free) (hfocus : Focus .root t k (.node a tl tr) as bs) :
    ∃ r, removeTarget cfg s k a = some r ∧ (r.1.1 = .ok → r.1.2 = true) ∧
      Removes cfg s (if r.1.1 ≠ .ok then r.2 else countRemoved r) (as ++ inorder tl)
        (inorder tr ++ bs) a r.1.1 := by
  have hinorder := hfocus.inorder_eq
  unfold removeTarget
  by_cases htwo : s.left a ≠ none ∧ s.right a ≠ none
  swap
  · obtain ⟨hst, hremoved⟩ := spliceTarget_cases h hfocus htwo
    rw [if_neg htwo]
    refine ⟨_, rfl, fun _ => by rw [hst], .inl ⟨htwo, by rw [hst], ?_⟩⟩
    rw [if_neg (by rw [hst]; simp)]
    exact hremoved
  obtain ⟨sl, succ, sr, cs, hloop, hread, hsucc⟩ := successor_cases h hfocus htwo.2
  rw [if_pos htwo, hloop]
  simp only [hread]
  refine ⟨_, rfl, ?_⟩
  rcases replaceBySuccessor_cases h hfocus hsucc with ⟨hst, hrestored⟩ | ⟨hst, hbehind, htook⟩
  · refine ⟨fun hok => absurd hok hst, .inr (.inl ⟨htwo.1, htwo.2, hst, ?_⟩)⟩
    rw [if_pos hst]
    rw [hinorder] at hrestored
    simpa using hrestored
  · refine ⟨fun _ => by rw [hst], .inr (.inr ⟨_, _, htwo.1, htwo.2, hbehind, by rw [hst], ?_⟩)⟩
    rw [if_neg (by rw [hst]; simp)]
    exact htook

theorem remove_some (cfg : BTreeConfig V) (s : BTree V) (key : V) :
    remove cfg s (some key) =
      (removeNode cfg s key (rounds cfg s) .root).map fun r =>
        if r.1.1 ≠ .ok then (r.1.1, r.2) else (.ok, countRemoved r) := rfl

/-- **`remove`** at the end of its search finds nothing, or removes the node there. -/
theorem remove_at (h : Inv cfg s t free) {key : V} (hfocus : Focus .root t k sub as bs)
    (hlocate : locate (direction cfg s key) .root t = (k, sub)) :
    (sub = .nil → remove cfg s (some key) = some (.notFound, s)) ∧
    ∀ slot tl tr, sub = .node slot tl tr → direction cfg s key slot = 0 →
      ∃ st u, remove cfg s (some key) = some (st, u) ∧
        (removeTarget cfg s k slot).map (fun r => r.1.1) = some st ∧
        Removes cfg s u (as ++ inorder tl) (inorder tr ++ bs) slot st := by
  have heq := removeNode_eq cfg key h.shape.spells h.height_le
  have hspells := hfocus.spells h.shape.spells
  rw [hlocate] at heq
  rw [remove_some, heq, removeNode]
  constructor
  · rintro rfl
    have hnull : s.readLink k = none := hspells
    rw [hnull]
    rfl
  · rintro slot tl tr rfl hzero
    have hcmp : cfg.compare key (s.cells.contents slot) = 0 := hzero
    obtain ⟨r, hr, hcount, hremoves⟩ := removeTarget_cases h hfocus
    rw [hspells.1]
    simp only [if_pos hcmp, hr, Option.map_some]
    refine ⟨r.1.1, if r.1.1 ≠ .ok then r.2 else countRemoved r, ?_, rfl, hremoves⟩
    by_cases hok : r.1.1 = .ok
    · rw [if_neg (not_not.mpr hok), if_neg (not_not.mpr hok), hok]
    · rw [if_pos hok, if_pos hok]

/-- **`remove`** does not find the key, or removes the node that is equivalent. -/
theorem remove_cases (h : Inv cfg s t free) {key : V}
    (hgraded : Graded (direction cfg s key) (inorder t)) :
    ∃ as bs st u, remove cfg s (some key) = some (st, u) ∧ Around (direction cfg s key) as bs ∧
      ((inorder t = as ++ bs ∧ st = .notFound ∧ u = s) ∨
        ∃ slot, inorder t = as ++ slot :: bs ∧ direction cfg s key slot = 0 ∧
          Removes cfg s u as bs slot st) := by
  obtain ⟨as, bs, hfocus, has, hbs, hend⟩ := locate_focus hgraded .root
  obtain ⟨hmissing, hfound⟩ := remove_at h hfocus rfl
  generalize (locate (direction cfg s key) .root t).1 = k at hfocus hfound
  generalize (locate (direction cfg s key) .root t).2 = sub at hfocus hend hmissing hfound
  have hinorder := hfocus.inorder_eq
  rcases hend with rfl | ⟨slot, tl, tr, rfl, hzero, htl, htr⟩
  · have hinorder : inorder t = as ++ bs := by simpa using hinorder
    exact ⟨as, bs, .notFound, s, hmissing rfl, ⟨has, hbs⟩, .inl ⟨hinorder, rfl, rfl⟩⟩
  · rw [inorder_node] at hinorder
    obtain ⟨st, u, hremove, -, hremoves⟩ := hfound slot tl tr rfl hzero
    refine ⟨as ++ inorder tl, inorder tr ++ bs, st, u, hremove, ⟨?_, ?_⟩,
      .inr ⟨slot, by simp [hinorder], hzero, hremoves⟩⟩
    · exact fun i hi => (List.mem_append.mp hi).elim (has i) (htl i)
    · exact fun i hi => (List.mem_append.mp hi).elim (htr i) (hbs i)

/-! ## Clearing -/

/-- **`clear_subtree`** gives all nodes of a subtree back, and changes no links of others. -/
theorem clearSubtree_cases {rest : List ℕ} (h : Spells s.readLink k t)
    (hapart : s.pool.Apart cfg.source (inorder t ++ rest) free) (hn : t.height ≤ n) :
    ∃ u free', clearSubtree cfg n s (s.readLink k) = some u ∧
      u.pool.Apart cfg.source rest free' ∧
      (∀ l : Link ℕ, (∀ i ∈ inorder t, l.owner ≠ some i) → u.readLink l = s.readLink l) ∧
      (cfg.needsDestroy = true → ∀ slots : Set ℕ, (∀ i ∈ inorder t, i ∈ slots) →
        s.cells.ledger.Holds slots → u.cells.ledger.Holds (slots \ {i | i ∈ inorder t})) := by
  induction t generalizing s k free rest n with
  | nil =>
    have hnull : s.readLink k = none := h
    rw [hnull]
    refine ⟨s, free, ?_, hapart, fun _ _ => rfl, fun _ slots _ hholds => by simpa using hholds⟩
    cases n <;> rfl
  | node a tl tr ihl ihr =>
    obtain ⟨hroot, hl, hr⟩ := h
    have hnodup := (List.nodup_append.mp (List.nodup_append.mp hapart.nodup).1).1
    rw [inorder_node] at hnodup
    obtain ⟨-, hnodupr, hdisj⟩ := List.nodup_append.mp hnodup
    have hal : a ∉ inorder tl := fun hmem => hdisj a hmem a List.mem_cons_self rfl
    have har : a ∉ inorder tr := (List.nodup_cons.mp hnodupr).1
    rw [hroot]
    cases n with
    | zero => cases hn
    | succ n =>
      rw [BinaryTree.height] at hn
      have hmax := max_le_iff.mp (Nat.le_of_succ_le_succ hn)
      -- the left subtree
      have hperm : (inorder (.node a tl tr) ++ rest).Perm (inorder tl ++ (inorder tr ++ a :: rest)) := by
        rw [inorder_node, List.append_assoc]
        refine List.Perm.append_left _ ?_
        rw [List.cons_append]
        exact List.perm_middle.symm
      obtain ⟨u, freeu, hu, hapartu, hlinks, hholds⟩ := ihl hl (hapart.perm hperm) hmax.1
      -- the right subtree, which is as it was
      have hright : u.readLink (.right a) = s.readLink (.right a) :=
        hlinks _ fun i hi heq => hal (Option.some.inj heq ▸ hi)
      have hr' : Spells u.readLink (.right a) tr := by
        refine hr.congr hright fun l i hi hmem => hlinks l fun j hj heq => ?_
        rw [hi] at heq
        exact hdisj j hj i (List.mem_cons_of_mem a hmem) (Option.some.inj heq).symm
      obtain ⟨v, freev, hv, hapartv, hlinks', hholds'⟩ := ihr hr' hapartu hmax.2
      -- the node itself
      have hapartd : (destroyNodeValue cfg v a).pool.Apart cfg.source (a :: rest) freev := by
        rw [destroyNodeValue_eq]
        exact hapartv
      obtain ⟨freew, hapartw, hlinks''⟩ := release_cases hapartd
      refine ⟨_, freew, ?_, hapartw, fun l hout => ?_, fun hneeds slots hsub hheld => ?_⟩
      · have hu' : clearSubtree cfg n s (s.left a) = some u := hu
        have hv' : clearSubtree cfg n u (u.right a) = some v := hv
        rw [clearSubtree, hu']
        simp only [hv']
      · have hdestroy : (destroyNodeValue cfg v a).readLink l = v.readLink l := by
          rw [destroyNodeValue_eq]
          exact congrFun (readLink_withCells v _) l
        rw [hlinks'' l (hout a (by simp)), hdestroy, hlinks' l fun i hi => hout i (by simp [hi]),
          hlinks l fun i hi => hout i (by simp [hi])]
      · have hleft := hholds hneeds slots (fun i hi => hsub i (by simp [hi])) hheld
        have hboth := hholds' hneeds (slots \ {i | i ∈ inorder tl})
          (fun i hi => ⟨hsub i (by simp [hi]), fun hmem =>
            hdisj i hmem i (List.mem_cons_of_mem a hi) rfl⟩) hleft
        have hall := hboth.destroy (a := a) ⟨⟨hsub a (by simp), hal⟩, har⟩
        have hset : slots \ {i | i ∈ inorder (.node a tl tr)} =
            ((slots \ {i | i ∈ inorder tl}) \ {i | i ∈ inorder tr}) \ {a} := by
          ext i
          simp only [Set.mem_sdiff, Set.mem_ofPred_eq, Set.mem_singleton_iff, inorder_node,
            List.mem_append, List.mem_cons]
          tauto
        rw [cells_releaseNode, ledger_destroyNodeValue hneeds, hset]
        exact hall

/-- **`clear`** gives all nodes back. -/
theorem clear_cases (h : Inv cfg s t free) :
    ∃ u free', clear cfg s = some u ∧ Inv cfg u .nil free' ∧
      (cfg.needsDestroy = true → (view cfg s).Holding (inorder t) → (view cfg u).Holding []) := by
  obtain ⟨u, free', hu, hapart, -, hholds⟩ := clearSubtree_cases h.shape.spells
    h.shape.apart h.height_le
  have hu' : clearSubtree cfg (rounds cfg s) s s.root = some u := hu
  -- what became of the objects
  have hcleared : cfg.needsDestroy = true → (view cfg s).Holding (inorder t) →
      u.cells.ledger.Holds {i | i ∈ ([] : List ℕ)} := by
    intro hneeds hholding
    have hall := hholds hneeds {i | i ∈ inorder t} (fun _ hi => hi) hholding
    rw [Set.sdiff_self] at hall
    simpa using hall
  rw [clear, hu', Option.map_some]
  by_cases hpool : cfg.source.fixedPool = true
  · refine ⟨initFreeList cfg { u with root := none, size := 0 }, (List.range cfg.source.capacity).reverse,
      congrArg some (if_pos hpool), ⟨⟨rfl, NodePool.apart_initFreeList hpool u.pool⟩, rfl⟩, hcleared⟩
  · exact ⟨{ u with root := none, size := 0 }, free', congrArg some (if_neg hpool),
      ⟨⟨rfl, hapart⟩, rfl⟩, hcleared⟩

theorem inv_init (cfg : BTreeConfig V) (links : ℕ → Option ℕ) (memory : ℕ → V) :
    ∃ free, Inv cfg (init cfg links memory) .nil free := by
  unfold init
  by_cases hpool : cfg.source.fixedPool = true
  · rw [if_pos hpool]
    exact ⟨_, ⟨rfl, NodePool.apart_initFreeList hpool _⟩, rfl⟩
  · rw [if_neg hpool]
    refine ⟨[], ⟨rfl, rfl, List.nodup_nil, fun hfixed => absurd hfixed hpool, fun _ => ⟨rfl, ?_⟩⟩, rfl⟩
    exact fun i hi => absurd hi List.not_mem_nil

/-! ## Reading -/

/-- **The walk to the left** gives the first node in order. -/
theorem walkLoop_left (h : Spells s.readLink k (.node a tl tr)) (hn : tl.height ≤ n) :
    walkLoop s.left n a = (inorder (.node a tl tr)).head? := by
  induction tl generalizing k a tr n with
  | nil =>
    have hnull : s.left a = none := h.2.1
    rw [walkLoop, hnull]
    rfl
  | node b tl' tr' ih _ =>
    have hleft : s.left a = some b := h.2.1.1
    rw [BinaryTree.height] at hn
    cases n with
    | zero => cases hn
    | succ n =>
      have hmax := max_le_iff.mp (Nat.le_of_succ_le_succ hn)
      rw [walkLoop, hleft]
      have hinorder : inorder (.node a (.node b tl' tr') tr) =
          inorder (.node b tl' tr') ++ a :: inorder tr := rfl
      show walkLoop s.left n b = _
      rw [ih h.2.1 hmax.1, hinorder, List.head?_append_of_ne_nil _ (by simp)]

/-- **The walk to the right** gives the last node in order. -/
theorem walkLoop_right (h : Spells s.readLink k (.node a tl tr)) (hn : tr.height ≤ n) :
    walkLoop s.right n a = (inorder (.node a tl tr)).getLast? := by
  induction tr generalizing k a tl n with
  | nil =>
    have hnull : s.right a = none := h.2.2
    rw [walkLoop, hnull]
    simp
  | node b tl' tr' _ ih =>
    have hright : s.right a = some b := h.2.2.1
    rw [BinaryTree.height] at hn
    cases n with
    | zero => cases hn
    | succ n =>
      have hmax := max_le_iff.mp (Nat.le_of_succ_le_succ hn)
      rw [walkLoop, hright]
      show walkLoop s.right n b = _
      rw [ih h.2.2 hmax.2, inorder_node (a := a), List.getLast?_append_of_ne_nil _ (by simp),
        List.getLast?_cons_of_ne_nil (by simp)]

/-- The nodes in the order of a traversal. -/
def traversed : Traversal → BinaryTree ℕ → List ℕ
  | _, .nil => []
  | .inorder, .node a tl tr => traversed .inorder tl ++ a :: traversed .inorder tr
  | .preorder, .node a tl tr => a :: (traversed .preorder tl ++ traversed .preorder tr)
  | .postorder, .node a tl tr => traversed .postorder tl ++ (traversed .postorder tr ++ [a])

theorem traversed_inorder (t : BinaryTree ℕ) : traversed .inorder t = inorder t := by
  induction t with
  | nil => rfl
  | node a tl tr ihl ihr => rw [traversed, ihl, ihr, inorder_node]

/-- A visit where the order asks for one. -/
theorem visitWhen_eq (order here : Traversal) (visit : List V → Status) (seen : List V) (elem : V) :
    visitWhen order here visit seen elem =
      visitLoop visit seen (if order = here then [elem] else []) := by
  unfold visitWhen
  by_cases horder : order = here
  · rw [if_pos horder, if_pos horder, visitLoop]
    by_cases hst : visit (seen ++ [elem]) ≠ .ok
    · simp only [if_pos hst]
    · rw [not_not] at hst
      simp only [hst, ne_eq, not_true_eq_false, if_false]
      rfl
  · rw [if_neg horder, if_neg horder]
    rfl

/-- The parts of a traversal of a node. -/
theorem map_traversed_node (order : Traversal) (f : ℕ → V) (a : ℕ) (tl tr : BinaryTree ℕ) :
    (traversed order (.node a tl tr)).map f =
      (if order = .preorder then [f a] else []) ++ ((traversed order tl).map f ++
        ((if order = .inorder then [f a] else []) ++ ((traversed order tr).map f ++
          if order = .postorder then [f a] else []))) := by
  cases order <;> simp [traversed]

/-- **`traverse_node`** visits the elements in the order asked for. -/
theorem traverseNode_eq (order : Traversal) (visit : List V → Status) {seen : List V}
    (h : Spells s.readLink k t) (hn : t.height ≤ n) :
    traverseNode s order visit n seen (s.readLink k) =
      some (visitLoop visit seen ((traversed order t).map s.cells.contents)) := by
  induction t generalizing k n seen with
  | nil =>
    have hnull : s.readLink k = none := h
    rw [hnull]
    cases n <;> cases order <;> rfl
  | node a tl tr ihl ihr =>
    obtain ⟨hroot, hl, hr⟩ := h
    rw [hroot]
    cases n with
    | zero => cases hn
    | succ n =>
      rw [BinaryTree.height] at hn
      have hmax := max_le_iff.mp (Nat.le_of_succ_le_succ hn)
      have hleft : ∀ seen, traverseNode s order visit n seen (s.left a) =
          some (visitLoop visit seen ((traversed order tl).map s.cells.contents)) :=
        fun _ => ihl hl hmax.1
      have hright : ∀ seen, traverseNode s order visit n seen (s.right a) =
          some (visitLoop visit seen ((traversed order tr).map s.cells.contents)) :=
        fun _ => ihr hr hmax.2
      rw [traverseNode, map_traversed_node, visitLoop_append, visitWhen_eq]
      simp only [visitLoop_append, visitWhen_eq, hleft, hright, visitThen]
      -- the visit before the subtrees
      generalize visitLoop visit seen _ = r
      by_cases hpre : r.1 ≠ .ok
      · rw [if_pos hpre, if_pos hpre]
      rw [if_neg hpre, if_neg hpre]
      generalize visitLoop visit r.2 _ = r
      by_cases hl' : r.1 ≠ .ok
      · rw [if_pos hl', if_pos hl']
      rw [if_neg hl', if_neg hl']
      generalize visitLoop visit r.2 _ = r
      by_cases hin : r.1 ≠ .ok
      · rw [if_pos hin, if_pos hin]
      rw [if_neg hin, if_neg hin]
      generalize visitLoop visit r.2 _ = r
      by_cases hr' : r.1 ≠ .ok
      · rw [if_pos hr', if_pos hr']
      rw [if_neg hr', if_neg hr']

end BTree

end Memkit
