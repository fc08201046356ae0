import Memkit.Core.NodeBlocks
import Memkit.Trees.BTreeOperations

/-! # The blocks of the tree

What the calls of `btree_map_core` obtain and free, at the places of `std::malloc` and `std::free`.
A node of an arena is not freed, nor one of a pool.

* **`callBlocks`** — the events, call by call.
* **`nodeCore_sound`** — they fit what the calls do to the nodes. -/

namespace Memkit

open LinkedTree NodeView NodeBlocks
open Ledger (Event)

namespace BTree

variable {V : Type*} {cfg : BTreeConfig V} {arena : Bool} {s u : BTree V} {t tl tr : BinaryTree ℕ}
  {free as bs : List ℕ} {slot a n : ℕ} {k : Link ℕ}

/-- The nodes are of the heap, in a build with the heap, unless they are of a pool or of an arena. -/
def ofHeap (cfg : BTreeConfig V) (arena : Bool) : Bool := !cfg.source.fixedPool && !arena

/-- The events of `make_node`: a failed copy frees the node. -/
def makeNodeBlocks (cfg : BTreeConfig V) (arena : Bool) (s : BTree V) (elem : V) :
    List (Event (Block NodeArea)) :=
  match acquireNode cfg s with
  | (.error _, _) => []
  | (.ok slot, s) =>
    granted (ofHeap cfg arena) slot ++
      if (s.cells.copyConstruct cfg.policy slot elem).1 ≠ .ok then freed (ofHeap cfg arena) slot
      else []

/-- The events of `insert`. -/
def insertBlocks (cfg : BTreeConfig V) (arena : Bool) (s : BTree V) (elem : Option V) :
    List (Event (Block NodeArea)) :=
  match elem with
  | none => []
  | some elem =>
    match s.readLink (endLink cfg s elem (rounds cfg s) .root) with
    | none => makeNodeBlocks cfg arena s elem
    | some _ => []

/-- The events of `remove_node` once the target is found: it frees the target, or the successor that
was copied over it. -/
def removeTargetBlocks (cfg : BTreeConfig V) (arena : Bool) (s : BTree V) (target : ℕ) :
    List (Event (Block NodeArea)) :=
  if s.left target ≠ none ∧ s.right target ≠ none then
    match (succLinkLoop s (rounds cfg s) (.right target)).bind s.readLink with
    | none => []
    | some successor =>
      taken (ofHeap cfg arena) successor
        (s.cells.copyConstruct cfg.policy target (s.cells.contents successor)).1
  else freed (ofHeap cfg arena) target

/-- The events of `remove`. -/
def removeBlocks (cfg : BTreeConfig V) (arena : Bool) (s : BTree V) (key : Option V) :
    List (Event (Block NodeArea)) :=
  match key with
  | none => []
  | some key =>
    match s.readLink (endLink cfg s key (rounds cfg s) .root) with
    | none => []
    | some target => removeTargetBlocks cfg arena s target

/-- The nodes that `clear_subtree` frees. -/
def clearSubtreeNodes (cfg : BTreeConfig V) : ℕ → BTree V → Option ℕ → List ℕ
  | _, _, none => []
  | 0, _, some _ => []
  | rounds + 1, s, some current =>
    clearSubtreeNodes cfg rounds s (s.left current) ++
      match clearSubtree cfg rounds s (s.left current) with
      | none => []
      | some s => clearSubtreeNodes cfg rounds s (s.right current) ++ [current]

/-- The events of `clear`. -/
def clearBlocks (cfg : BTreeConfig V) (arena : Bool) (s : BTree V) :
    List (Event (Block NodeArea)) :=
  (clearSubtreeNodes cfg (rounds cfg s) s s.root).flatMap (freed (ofHeap cfg arena))

/-- The events of a call. -/
def callBlocks (cfg : BTreeConfig V) (arena : Bool) (s : BTree V) :
    Call V → List (Event (Block NodeArea))
  | .insert elem => insertBlocks cfg arena s elem
  | .remove key => removeBlocks cfg arena s key
  | .clear => clearBlocks cfg arena s
  | .get _ _ => []
  | .contains _ => []
  | .peekMin _ => []
  | .peekMax _ => []
  | .foreach _ => []

/-- The tree with what it does to the heap. -/
def nodeCore (cfg : BTreeConfig V) (arena : Bool) : NodeCore (BTree V) (Call V) (Option (Reply V)) where
  call := BTree.call cfg
  blocks := callBlocks cfg arena
  clear := clear cfg
  clearBlocks := clearBlocks cfg arena

/-! ## Inserting -/

/-- **`make_node`** that fails has freed what it obtained. -/
theorem makeNodeBlocks_failed {elem : V} {st : Status} (h : Inv cfg s t free)
    (hfailed : makeNode cfg s elem = (.error st, u)) {shape : List ℕ → Prop}
    (hshape : shape (inorder t)) :
    Step (ofHeap cfg arena) (inorder t) shape (makeNodeBlocks cfg arena s elem) := by
  unfold makeNode at hfailed
  unfold makeNodeBlocks
  rcases acquireNode_cases h.shape with ⟨st', v, heq, -⟩ | ⟨slot, v, free', heq, hspare, -⟩
  · rw [heq]
    exact .keep hshape
  · rw [heq] at hfailed ⊢
    dsimp only at hfailed ⊢
    by_cases hok : (v.cells.copyConstruct cfg.policy slot elem).1 ≠ .ok
    · rw [if_pos hok]
      exact .giveBack hshape hspare.spare_notMem
    · rw [if_neg hok] at hfailed
      cases congrArg Prod.fst hfailed

/-- **`make_node`** that returns a node has obtained it. -/
theorem makeNodeBlocks_ok {elem : V} (hok : makeNode cfg s elem = (.ok slot, u)) :
    makeNodeBlocks cfg arena s elem = granted (ofHeap cfg arena) slot := by
  unfold makeNode at hok
  unfold makeNodeBlocks
  generalize acquireNode cfg s = r at hok ⊢
  obtain ⟨result, v⟩ := r
  cases result with
  | error st => cases congrArg Prod.fst hok
  | ok slot' =>
    dsimp only at hok ⊢
    by_cases hcopy : (v.cells.copyConstruct cfg.policy slot' elem).1 ≠ .ok
    · rw [if_pos hcopy] at hok
      cases congrArg Prod.fst hok
    · rw [if_neg hcopy] at hok ⊢
      rw [List.append_nil, Except.ok.inj (congrArg Prod.fst hok)]

/-- **Inserting at a null link** obtains the leaf. -/
theorem insertHere_step (h : Inv cfg s t free) (hfocus : Focus .root t k .nil as bs) (elem : V) :
    Step (ofHeap cfg arena) (inorder t)
      (view cfg (countInserted (insertHere cfg s k elem))).shape (makeNodeBlocks cfg arena s elem) := by
  have hinorder : inorder t = as ++ bs := by simpa using hfocus.inorder_eq
  unfold insertHere
  rcases makeNode_cases h elem with
    ⟨st, u, free', heq, -, -, hkept, -⟩ | ⟨slot, u, free', heq, hshape, hleft, hright, hsize, -⟩
  · have hcount : countInserted ((st, false), u) = u := if_neg (by simp)
    rw [heq]
    refine makeNodeBlocks_failed h heq ?_
    show (view cfg (countInserted ((st, false), u))).shape (inorder t)
    rw [hcount]
    exact hkept.shape
  · obtain ⟨t', hshape', hinorder'⟩ := hshape.addLeaf hfocus hleft hright
    have hspare := hshape.spare_notMem
    rw [makeNodeBlocks_ok heq, heq]
    rw [hinorder] at hspare ⊢
    refine .obtain ⟨t', free', ⟨hshape'.withSize _, ?_⟩, hinorder'⟩ hspare
    show (u.writeLink k (some slot)).size + 1 = _
    rw [size_writeLink, hsize, h.size_eq, hinorder, hinorder']
    simp only [List.length_append, List.length_cons]
    omega

/-- **`insert`** -/
theorem insert_step (h : Inv cfg s t free) (elem : Option V) :
    Step (ofHeap cfg arena) (inorder t)
      (view cfg (BTree.call cfg s (.insert elem)).2).shape (insertBlocks cfg arena s elem) := by
  cases elem with
  | none => exact .keep ⟨t, free, h, rfl⟩
  | some elem =>
    have hsearch := endLink_eq cfg elem h.shape.spells h.height_le
    obtain ⟨as, bs, hfocus, hend⟩ := locate_ends (direction cfg s elem) t .root
    obtain ⟨hleaf, hover⟩ := insert_at h hfocus rfl
    generalize (locate (direction cfg s elem) .root t).1 = k at hsearch hfocus hleaf
    generalize (locate (direction cfg s elem) .root t).2 = sub at hfocus hend hleaf hover
    have hspells := hfocus.spells h.shape.spells
    unfold insertBlocks
    simp only [hsearch]
    rcases hend with rfl | ⟨slot, tl, tr, rfl, hzero⟩
    · have hnull : s.readLink k = none := hspells
      rw [hnull]
      simp only [call, hleaf rfl]
      exact insertHere_step h hfocus elem
    · rw [hspells.1]
      simp only [call, hover slot tl tr rfl hzero]
      exact .keep ⟨t, free, ⟨h.shape.withCells _, h.size_eq⟩, rfl⟩

/-! ## Removing -/

/-- **A removal** frees the target, or its successor if the element of the successor was copied. -/
theorem removeTarget_step (h : Inv cfg s t free) (hfocus : Focus .root t k (.node a tl tr) as bs)
    {st : Status} (hst : (removeTarget cfg s k a).map (fun r => r.1.1) = some st)
    (hremoves : Removes cfg s u (as ++ inorder tl) (inorder tr ++ bs) a st) :
    Step (ofHeap cfg arena) (inorder t) (view cfg u).shape (removeTargetBlocks cfg arena s a) := by
  have hinorder : inorder t = (as ++ inorder tl) ++ a :: (inorder tr ++ bs) := by
    simp [hfocus.inorder_eq]
  have hnodup := h.shape.nodup
  rw [hinorder] at hnodup ⊢
  unfold removeTargetBlocks
  by_cases htwo : s.left a ≠ none ∧ s.right a ≠ none
  swap
  · -- the target is taken out
    rw [if_neg htwo]
    rcases hremoves with ⟨-, -, hremoved⟩ | ⟨hleft, hright, -⟩ | ⟨succ, cs, hleft, hright, -⟩
    · exact .free hremoved.shape (List.nodup_cons.mp (List.nodup_middle.mp hnodup)).1
    · exact absurd ⟨hleft, hright⟩ htwo
    · exact absurd ⟨hleft, hright⟩ htwo
  obtain ⟨sl, succ, sr, cs, hloop, hread, hsucc⟩ := successor_cases h hfocus htwo.2
  have hright : inorder tr = succ :: (inorder sr ++ cs) := by simpa using hsucc.inorder_eq
  -- the removal is told by the status of the copy
  have hcopy : (s.cells.copyConstruct cfg.policy a (s.cells.contents succ)).1 = st := by
    unfold removeTarget at hst
    rw [if_pos htwo, hloop] at hst
    simp only [hread, Option.map_some] at hst
    refine Eq.trans ?_ (Option.some.inj hst)
    unfold replaceBySuccessor
    dsimp only
    rw [cells_writeLink]
    by_cases hok : (s.cells.copyConstruct cfg.policy a (s.cells.contents succ)).1 ≠ .ok
    · rw [if_pos hok]
    · rw [if_neg hok]
      exact not_not.mp hok
  rw [if_pos htwo, hloop]
  simp only [Option.bind_some, hread, hcopy]
  unfold taken
  rcases hremoves with ⟨hone, -⟩ | ⟨-, -, hfailed, hrestored⟩ | ⟨succ', cs', -, -, hbehind, hok, htook⟩
  · exact absurd htwo hone
  · rw [if_pos hfailed]
    exact .keep hrestored.shape
  · -- the successor is the node behind the target
    rw [hright, List.cons_append] at hbehind
    obtain ⟨hsucc', hcs'⟩ := List.cons.inj hbehind
    have hshape := htook.shape
    rw [if_neg (not_not.mpr hok), hright, List.cons_append, hcs', List.append_cons]
    rw [hright, List.cons_append, hcs', List.append_cons] at hnodup
    rw [List.append_cons] at hshape
    exact .free hshape (List.nodup_cons.mp (List.nodup_middle.mp hnodup)).1

/-- **`remove`** -/
theorem remove_step (h : Inv cfg s t free) (key : Option V) :
    Step (ofHeap cfg arena) (inorder t)
      (view cfg (BTree.call cfg s (.remove key)).2).shape (removeBlocks cfg arena s key) := by
  cases key with
  | none => exact .keep ⟨t, free, h, rfl⟩
  | some key =>
    have hsearch := endLink_eq cfg key h.shape.spells h.height_le
    obtain ⟨as, bs, hfocus, hend⟩ := locate_ends (direction cfg s key) t .root
    obtain ⟨hmissing, hfound⟩ := remove_at h hfocus rfl
    generalize (locate (direction cfg s key) .root t).1 = k at hsearch hfocus hfound
    generalize (locate (direction cfg s key) .root t).2 = sub at hfocus hend hmissing hfound
    have hspells := hfocus.spells h.shape.spells
    unfold removeBlocks
    simp only [hsearch]
    rcases hend with rfl | ⟨slot, tl, tr, rfl, hzero⟩
    · have hnull : s.readLink k = none := hspells
      rw [hnull]
      simp only [call, hmissing rfl]
      exact .keep ⟨t, free, h, rfl⟩
    · obtain ⟨st, u, hremove, hst, hremoves⟩ := hfound slot tl tr rfl hzero
      rw [hspells.1]
      simp only [call, hremove]
      exact removeTarget_step h hfocus hst hremoves

/-! ## Clearing -/

/-- **`clear_subtree`** frees the nodes of the subtree. -/
theorem clearSubtreeNodes_perm {rest : List ℕ} (h : Spells s.readLink k t)
    (hapart : s.pool.Apart cfg.source (inorder t ++ rest) free) (hn : t.height ≤ n) :
    (clearSubtreeNodes cfg n s (s.readLink k)).Perm (inorder t) := by
  induction t generalizing s k free rest n with
  | nil =>
    have hnull : s.readLink k = none := h
    rw [hnull]
    cases n <;> exact List.Perm.refl _
  | node a tl tr ihl ihr =>
    obtain ⟨hroot, hl, hr⟩ := h
    have hnodup := (List.nodup_append.mp (List.nodup_append.mp hapart.nodup).1).1
    rw [inorder_node] at hnodup
    obtain ⟨-, -, hdisj⟩ := List.nodup_append.mp hnodup
    rw [hroot]
    cases n with
    | zero => cases hn
    | succ n =>
      rw [BinaryTree.height] at hn
      have hmax := max_le_iff.mp (Nat.le_of_succ_le_succ hn)
      have hperm : (inorder (.node a tl tr) ++ rest).Perm (inorder tl ++ (inorder tr ++ a :: rest)) := by
        rw [inorder_node, List.append_assoc]
        refine List.Perm.append_left _ ?_
        rw [List.cons_append]
        exact List.perm_middle.symm
      obtain ⟨u, freeu, hu, hapartu, hlinks, -⟩ := clearSubtree_cases hl (hapart.perm hperm) hmax.1
      -- the right subtree is as it was
      have hright : u.readLink (.right a) = s.readLink (.right a) := by
        refine hlinks _ fun i hi heq => ?_
        exact hdisj i hi a List.mem_cons_self (Option.some.inj heq).symm
      have hr' : Spells u.readLink (.right a) tr := by
        refine hr.congr hright fun l i hi hmem => hlinks l fun j hj heq => ?_
        rw [hi] at heq
        exact hdisj j hj i (List.mem_cons_of_mem a hmem) (Option.some.inj heq).symm
      have hu' : clearSubtree cfg n s (s.left a) = some u := hu
      rw [clearSubtreeNodes, hu', inorder_node]
      refine (ihl hl (hapart.perm hperm) hmax.1).append ?_
      exact ((ihr hr' hapartu hmax.2).append_right [a]).trans (List.perm_append_singleton a _)

/-- **`clear`** frees all nodes. -/
theorem clear_freed (h : Inv cfg s t free) {others : List (Block NodeArea)}
    {heap : Ledger (Block NodeArea)} (hholds : HoldsNodes (ofHeap cfg arena) others (inorder t) heap) :
    HoldsNodes (ofHeap cfg arena) others [] (heap.replay (clearBlocks cfg arena s)) := by
  have hperm : (clearSubtreeNodes cfg (rounds cfg s) s s.root).Perm (inorder t) :=
    clearSubtreeNodes_perm h.shape.spells h.shape.apart h.height_le
  have hfreed := hholds.perm hperm.symm
  have hnodup := hperm.nodup_iff.mpr h.shape.nodup
  rw [← List.append_nil (clearSubtreeNodes ..)] at hfreed hnodup
  exact hfreed.freedAll hnodup

/-- **What every call obtains and frees** fits what it does to the nodes. -/
theorem nodeCore_sound (cfg : BTreeConfig V) (arena : Bool) :
    (nodeCore cfg arena).Sound (ofHeap cfg arena) fun s => (view cfg s).shape where
  call := by
    rintro s nodes c ⟨t, free, h, rfl⟩
    have hself : (view cfg s).shape (inorder t) := ⟨t, free, h, rfl⟩
    show Step _ _ (view cfg (BTree.call cfg s c).2).shape (callBlocks cfg arena s c)
    cases c with
    | insert elem => exact insert_step h elem
    | remove key => exact remove_step h key
    | clear =>
      obtain ⟨u, free', heq, hinv, -⟩ := clear_cases h
      refine ⟨[], ⟨.nil, free', ?_, rfl⟩, fun others heap hholds => clear_freed h hholds⟩
      simp only [BTree.call, heq]
      exact hinv
    | get key out => exact .keep hself
    | contains key => exact .keep hself
    | peekMin out => exact .keep hself
    | peekMax out => exact .keep hself
    | foreach visit => exact .keep hself
  clear := by
    rintro s nodes ⟨t, free, h, rfl⟩
    obtain ⟨u, free', heq, -⟩ := clear_cases h
    exact ⟨u, heq, fun others heap hholds => clear_freed h hholds⟩

end BTree

end Memkit
