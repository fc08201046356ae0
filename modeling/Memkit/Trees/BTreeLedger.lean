import Memkit.Trees.BTreeOperations

/-! # The objects of the tree

Every node of `btree_map_core` is constructed only when it holds no object and destroyed only when it
holds one, as long as no node with two children is removed: its element is overwritten by a copy that
constructs.

* **`OneChild`** — the calls that remove none.
* **`settledRuns`** — what their runs keep, and what a clear leaves. -/

namespace Memkit

open LinkedTree NodeView

namespace BTree

variable {V : Type*} {cfg : BTreeConfig V} {s : BTree V} {t : BinaryTree ℕ} {free : List ℕ}

/-- A removal at `slot` copies over an element. -/
def HasTwoChildren (s : BTree V) (slot : ℕ) : Prop := s.left slot ≠ none ∧ s.right slot ≠ none

instance (s : BTree V) (slot : ℕ) : Decidable (HasTwoChildren s slot) :=
  inferInstanceAs (Decidable (_ ∧ _))

/-- **The condition**: not a removal of a node with two children. -/
def OneChild (cfg : BTreeConfig V) (s : BTree V) : Call V → Prop
  | .remove (some key) => ∀ slot ∈ (findNode cfg s key).join, ¬ HasTwoChildren s slot
  | _ => True

instance (cfg : BTreeConfig V) (s : BTree V) : ∀ c, Decidable (OneChild cfg s c)
  | .insert _ => isTrue trivial
  | .get _ _ => isTrue trivial
  | .contains _ => isTrue trivial
  | .remove none => isTrue trivial
  | .remove (some key) =>
    inferInstanceAs (Decidable (∀ slot ∈ (findNode cfg s key).join, ¬ HasTwoChildren s slot))
  | .clear => isTrue trivial
  | .peekMin _ => isTrue trivial
  | .peekMax _ => isTrue trivial
  | .foreach _ => isTrue trivial

/-- **`insert`** constructs in a new node, or assigns. -/
theorem balanced_insert (h : Inv cfg s t free) (hholding : (view cfg s).Holding (inorder t))
    (elem : Option V) : (view cfg (call cfg s (.insert elem)).2).Balanced := by
  cases elem with
  | none => exact ⟨_, ⟨t, free, h, rfl⟩, hholding⟩
  | some elem =>
    obtain ⟨as, bs, hfocus, hend⟩ := locate_ends (direction cfg s elem) t .root
    obtain ⟨hleaf, hover⟩ := insert_at h hfocus rfl
    generalize (locate (direction cfg s elem) .root t).1 = k at hfocus hleaf
    generalize (locate (direction cfg s elem) .root t).2 = sub at hfocus hend hleaf hover
    rcases hend with rfl | ⟨slot, tl, tr, rfl, hzero⟩
    · have hinorder : inorder t = as ++ bs := by simpa using hfocus.inorder_eq
      rw [hinorder] at hholding
      simp only [call, hleaf rfl]
      exact (insertHere_cases h hfocus elem).balanced hholding
    · simp only [call, hover slot tl tr rfl hzero]
      exact ⟨_, ⟨t, free, ⟨h.shape.withCells _, h.size_eq⟩, rfl⟩, hholding⟩

/-- **`remove`** of a node with at most one child destroys its element. -/
theorem balanced_remove (h : Inv cfg s t free) (hneeds : cfg.needsDestroy = true)
    (hholding : (view cfg s).Holding (inorder t)) {key : Option V}
    (hone : OneChild cfg s (.remove key)) :
    (view cfg (call cfg s (.remove key)).2).Balanced := by
  cases key with
  | none => exact ⟨_, ⟨t, free, h, rfl⟩, hholding⟩
  | some key =>
    have hfind : findNode cfg s key = _ := findLoop_eq cfg key h.shape.spells h.height_le
    obtain ⟨as, bs, hfocus, hend⟩ := locate_ends (direction cfg s key) t .root
    obtain ⟨hmissing, hfound⟩ := remove_at h hfocus rfl
    generalize (locate (direction cfg s key) .root t).1 = k at hfind hfocus hfound
    generalize (locate (direction cfg s key) .root t).2 = sub at hfocus hend hmissing hfound
    rcases hend with rfl | ⟨slot, tl, tr, rfl, hzero⟩
    · simp only [call, hmissing rfl]
      exact ⟨_, ⟨t, free, h, rfl⟩, hholding⟩
    · obtain ⟨st, u, hremove, -, hremoves⟩ := hfound slot tl tr rfl hzero
      -- the node found is the one at the end of the search
      have hnot : ¬ HasTwoChildren s slot := by
        refine hone slot ?_
        rw [hfind, (hfocus.spells h.shape.spells).1]
        rfl
      have hinorder : inorder t = (as ++ inorder tl) ++ slot :: (inorder tr ++ bs) := by
        simp [hfocus.inorder_eq]
      rw [hinorder] at hholding
      simp only [call, hremove]
      rcases hremoves with ⟨-, -, hremoved⟩ | ⟨hleft, hright, -⟩ | ⟨succ, cs, hleft, hright, -⟩
      · refine ⟨_, hremoved.shape, hremoved.holding hneeds ?_ hholding⟩
        rintro ⟨value, hvalue, -⟩
        cases hvalue
      · exact absurd ⟨hleft, hright⟩ hnot
      · exact absurd ⟨hleft, hright⟩ hnot

/-- **`clear`** destroys all elements. -/
theorem clear_balanced (h : (view cfg s).Balanced) (hneeds : cfg.needsDestroy = true) :
    (view cfg (call cfg s .clear).2).Balanced ∧ (call cfg s .clear).2.cells.ledger.Holds ∅ := by
  obtain ⟨_, ⟨t, free, hinv, rfl⟩, hholding⟩ := h
  obtain ⟨u, free', heq, hinv', hcleared⟩ := clear_cases hinv
  have hempty : {i : ℕ | i ∈ ([] : List ℕ)} = ∅ := by simp
  have hholds := hcleared hneeds hholding
  simp only [call, heq]
  refine ⟨⟨[], ⟨.nil, free', hinv', rfl⟩, hholds⟩, ?_⟩
  rw [← hempty]
  exact hholds

/-- **Every call** that does not copy over an element keeps the objects those of the nodes. -/
theorem balanced_call (h : (view cfg s).Balanced) (hneeds : cfg.needsDestroy = true) (c : Call V)
    (hone : OneChild cfg s c) : (view cfg (call cfg s c).2).Balanced := by
  have hself := h
  obtain ⟨_, ⟨t, free, hinv, rfl⟩, hholding⟩ := h
  cases c with
  | insert elem => exact balanced_insert hinv hholding elem
  | remove key => exact balanced_remove hinv hneeds hholding hone
  | clear => exact (clear_balanced hself hneeds).1
  | get key out => exact hself
  | contains key => exact hself
  | peekMin out => exact hself
  | peekMax out => exact hself
  | foreach visit => exact hself

/-- **The objects of the nodes**, in a run of such calls: every one is constructed in a node without
an object and destroyed once. -/
theorem settledRuns (cfg : BTreeConfig V) (hneeds : cfg.needsDestroy = true)
    (links : ℕ → Option ℕ) (memory : ℕ → V) :
    SettledRuns (call cfg) (OneChild cfg) (·.cells.ledger) .clear (init cfg links memory) := by
  refine .of_invariant (fun s => (view cfg s).Balanced)
    (fun _ c h hone => balanced_call h hneeds c hone) ?_
    (fun _ ⟨_, _, hholding⟩ => hholding.no_fault) fun _ h => (clear_balanced h hneeds).2
  obtain ⟨free, hinv⟩ := inv_init cfg links memory
  refine ⟨[], ⟨.nil, free, hinv, rfl⟩, ?_⟩
  have hledger : (init cfg links memory).cells.ledger = .empty ℕ := by
    unfold init
    cases cfg.source.fixedPool <;> rfl
  show (init cfg links memory).cells.ledger.Holds _
  rw [hledger]
  exact Ledger.holds_nil

end BTree

end Memkit
