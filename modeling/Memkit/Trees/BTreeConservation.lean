import Memkit.Trees.BTreeCopies

/-! # The nodes of the tree

No call of `btree_map_core` loses a node or uses one twice, whatever the copies return; and an
insertion or a removal that fails leaves the tree as it was, if a copy that fails leaves its
destination as it was.

* **`Conserved`** — the nodes of the tree and the free list partition the pool.
* **`call_inv`** — every call returns and keeps the shape of the tree.
* **`insert_failed`, `remove_failed`** — what a failure leaves. -/

namespace Memkit

open LinkedTree NodeView LinkedChain

namespace BTree

variable {V : Type*} {cfg : BTreeConfig V} {s u : BTree V} {t : BinaryTree ℕ} {free : List ℕ}
  {k : Link ℕ} {key elem : V} {st : Status} {target n : ℕ}

/-- The tree over a pool is `t` and `free` is its free list: between them they have every node of the
pool, and none twice. -/
structure Conserved (cfg : BTreeConfig V) (s : BTree V) (t : BinaryTree ℕ) (free : List ℕ) :
    Prop where
  tree : Spells s.readLink .root t
  list : Seg s.left s.pool.freeList free none
  partition : (inorder t ++ free).Perm (List.range cfg.source.capacity)
  size_eq : s.size = (inorder t).length

/-- The trees `s` and `u` are both `t`, with the same elements at its nodes. -/
structure SameTree (s u : BTree V) (t : BinaryTree ℕ) : Prop where
  before : Spells s.readLink .root t
  after : Spells u.readLink .root t
  contents : ∀ i ∈ inorder t, u.cells.contents i = s.cells.contents i
  size_eq : u.size = s.size

/-- A copy that fails leaves its destination as it was. -/
def Untouched (policy : ElementPolicy V) : Prop :=
  ∀ n dst src, (policy.copyFn n dst src).1 ≠ .ok → (policy.copyFn n dst src).2 = dst

theorem Inv.conserved (h : Inv cfg s t free) (hpool : cfg.source.fixedPool = true) :
    Conserved cfg s t free where
  tree := h.shape.spells
  list := h.shape.apart.free_walk
  partition := by
    have hperm := h.shape.apart.of_pool hpool
    rwa [List.append_nil] at hperm
  size_eq := h.size_eq

theorem Inv.sameTree (h : Inv cfg s t free) : SameTree s s t :=
  ⟨h.shape.spells, h.shape.spells, fun _ _ => rfl, rfl⟩

/-! ## What keeps the shape -/

/-- **`insert`** returns and keeps the shape. -/
theorem insert_inv (h : Inv cfg s t free) (elem : V) :
    ∃ st u, BTree.insert cfg s (some elem) = some (st, u) ∧ ∃ t' free', Inv cfg u t' free' := by
  obtain ⟨as, bs, hfocus, hend⟩ := locate_ends (direction cfg s elem) t .root
  obtain ⟨hleaf, hover⟩ := insert_at h hfocus rfl
  generalize (locate (direction cfg s elem) .root t).1 = k at hfocus hleaf
  generalize (locate (direction cfg s elem) .root t).2 = sub at hfocus hend hleaf hover
  rcases hend with rfl | ⟨slot, tl, tr, rfl, hzero⟩
  · refine ⟨_, _, hleaf rfl, ?_⟩
    rcases insertHere_cases h hfocus elem with ⟨-, hkept, -⟩ | ⟨slot, -, hadded, -⟩
    · obtain ⟨t', free', hinv, -⟩ := hkept.shape
      exact ⟨t', free', hinv⟩
    · obtain ⟨t', free', hinv, -⟩ := hadded.shape
      exact ⟨t', free', hinv⟩
  · exact ⟨_, _, hover slot tl tr rfl hzero, t, free, h.shape.withCells _, h.size_eq⟩

/-- **A call** returns and keeps the shape. -/
theorem call_inv (h : Inv cfg s t free) (c : Call V) :
    (∃ reply, (call cfg s c).1 = some reply) ∧ ∃ t' free', Inv cfg (call cfg s c).2 t' free' := by
  -- the calls that read, or have nothing to do
  have hreads : ∀ reply : Reply V, call cfg s c = (some reply, s) →
      (∃ reply, (call cfg s c).1 = some reply) ∧ ∃ t' free', Inv cfg (call cfg s c).2 t' free' := by
    intro reply hcall
    rw [hcall]
    exact ⟨⟨reply, rfl⟩, t, free, h⟩
  have hfind : ∀ key, ∃ node, findNode cfg s key = some node := fun key =>
    ⟨_, findLoop_eq cfg key h.shape.spells h.height_le⟩
  cases c with
  | insert elem =>
    cases elem with
    | none => exact hreads (.status .nullPtr) rfl
    | some elem =>
      obtain ⟨st, u, heq, hinv⟩ := insert_inv h elem
      have hcall : call cfg s (.insert (some elem)) = (some (.status st), u) := by
        simp only [call, heq, replyStatus]
      rw [hcall]
      exact ⟨⟨_, rfl⟩, hinv⟩
  | get key out =>
    cases key with
    | none => exact hreads (.value .nullPtr out) rfl
    | some key =>
      cases out with
      | none => exact hreads (.value .nullPtr none) rfl
      | some out =>
        obtain ⟨node, heq⟩ := hfind key
        exact hreads _ (by simp only [call, get, heq, Option.map_some]; rfl)
  | contains key =>
    cases key with
    | none => exact hreads (.contains false) rfl
    | some key =>
      obtain ⟨node, heq⟩ := hfind key
      exact hreads _ (by simp only [call, contains, heq, Option.map_some]; rfl)
  | remove key =>
    cases key with
    | none => exact hreads (.status .nullPtr) rfl
    | some key =>
      obtain ⟨st, u, heq, hinv, -⟩ := remove_truthful h key
      have hcall : call cfg s (.remove (some key)) = (some (.status st), u) := by
        simp only [call, heq, replyStatus]
      rw [hcall]
      exact ⟨⟨_, rfl⟩, hinv⟩
  | clear =>
    obtain ⟨u, free', heq, hinv, -⟩ := clear_cases h
    have hcall : call cfg s .clear = (some .done, u) := by
      simp only [call, heq]
    rw [hcall]
    exact ⟨⟨_, rfl⟩, _, _, hinv⟩
  | peekMin out => exact hreads _ (by simp only [call, h.peekMin, Option.map_some]; rfl)
  | peekMax out => exact hreads _ (by simp only [call, h.peekMax, Option.map_some]; rfl)
  | foreach visit =>
    have heq : foreach cfg s .inorder visit = _ :=
      traverseNode_eq .inorder visit h.shape.spells h.height_le
    exact hreads _ (by simp only [call, heq, Option.map_some]; rfl)

/-! ## What a failure leaves -/

/-- **A failing `insert`** could not make a node, and no link of the tree changed. -/
theorem insert_failed (h : Inv cfg s t free)
    (hinsert : BTree.insert cfg s (some elem) = some (st, u)) (hst : st ≠ .ok) : SameTree s u t := by
  obtain ⟨as, bs, hfocus, hend⟩ := locate_ends (direction cfg s elem) t .root
  obtain ⟨hleaf, hover⟩ := insert_at h hfocus rfl
  generalize (locate (direction cfg s elem) .root t).1 = k at hfocus hleaf
  generalize (locate (direction cfg s elem) .root t).2 = sub at hfocus hend hleaf hover
  rcases hend with rfl | ⟨slot, tl, tr, rfl, hzero⟩
  swap
  · -- an element that is replaced is always ok
    have heq := hinsert.symm.trans (hover slot tl tr rfl hzero)
    exact absurd (congrArg Prod.fst (Option.some.inj heq)) hst
  have heq := Option.some.inj (hinsert.symm.trans (hleaf rfl))
  unfold insertHere at heq
  rcases makeNode_cases h elem with
    ⟨st', v, free', hmake, -, hinv, hkept, -⟩ | ⟨slot, v, free', hmake, -⟩
  · rw [hmake] at heq
    have hu : u = v := (congrArg Prod.snd heq).trans (if_neg (by simp))
    rw [hu]
    exact ⟨h.shape.spells, hinv.shape.spells, hkept.contents, hinv.size_eq.trans h.size_eq.symm⟩
  · rw [hmake] at heq
    exact absurd (congrArg Prod.fst heq) hst

/-- All links, elements and the count are as before. -/
structure AsBefore (s u : BTree V) : Prop where
  readLink_eq : u.readLink = s.readLink
  contents_eq : u.cells.contents = s.cells.contents
  size_eq : u.size = s.size

theorem AsBefore.sameTree (h : AsBefore s u) (hspells : Spells s.readLink .root t) :
    SameTree s u t where
  before := hspells
  after := by
    rw [h.readLink_eq]
    exact hspells
  contents i _ := congrFun h.contents_eq i
  size_eq := h.size_eq

/-- A failure at the target of a removal is that of the copy of its successor. -/
theorem removeTarget_failed (hcopies : Untouched cfg.policy) {r : (Status × Bool) × BTree V}
    (htarget : removeTarget cfg s k target = some r) (hst : r.1.1 ≠ .ok) : AsBefore s r.2 := by
  unfold removeTarget at htarget
  by_cases htwo : s.left target ≠ none ∧ s.right target ≠ none
  swap
  · rw [if_neg htwo] at htarget
    refine absurd ?_ hst
    rw [← Option.some.inj htarget]
    rfl
  rw [if_pos htwo] at htarget
  cases hloop : succLinkLoop s (rounds cfg s) (.right target) with
  | none =>
    rw [hloop] at htarget
    cases htarget
  | some succLink =>
    simp only [hloop] at htarget
    cases hread : s.readLink succLink with
    | none =>
      rw [hread] at htarget
      cases htarget
    | some successor =>
      rw [hread] at htarget
      obtain rfl := Option.some.inj htarget
      obtain ⟨hlinks, hsize, -, hstatus, hcells⟩ := replaceBySuccessor_undone hread hst
      refine ⟨hlinks, ?_, hsize⟩
      -- the copy failed, so it wrote what was there
      rw [hstatus] at hst
      rw [hcells]
      show Function.update s.cells.contents target _ = _
      exact Function.update_eq_self_iff.mpr (hcopies _ _ _ hst)

/-- **A failing `remove_node`** did not find the key, or undid what it did. -/
theorem removeNode_failed (hcopies : Untouched cfg.policy) {r : (Status × Bool) × BTree V}
    (hremove : removeNode cfg s key n k = some r) (hst : r.1.1 ≠ .ok) : AsBefore s r.2 := by
  -- one case for each end of the recursion: a null link, the node, no round left
  fun_induction removeNode cfg s key n k with
  | case1 =>
    obtain rfl := Option.some.inj hremove
    exact ⟨rfl, rfl, rfl⟩
  | case2 => exact removeTarget_failed hcopies hremove hst
  | case3 => cases hremove
  | case4 _ _ _ _ _ _ ih => exact ih hremove

/-- **A failing `remove`** leaves everything as it was. -/
theorem remove_failed (hcopies : Untouched cfg.policy)
    (hremove : remove cfg s (some key) = some (st, u)) (hst : st ≠ .ok) : AsBefore s u := by
  rw [remove_some] at hremove
  cases hnode : removeNode cfg s key (rounds cfg s) .root with
  | none =>
    rw [hnode] at hremove
    cases hremove
  | some r =>
    rw [hnode, Option.map_some] at hremove
    by_cases hok : r.1.1 ≠ .ok
    · rw [if_pos hok] at hremove
      have hu : r.2 = u := congrArg Prod.snd (Option.some.inj hremove)
      exact hu ▸ removeNode_failed hcopies hnode hok
    · rw [if_neg hok] at hremove
      exact absurd (congrArg Prod.fst (Option.some.inj hremove)).symm hst

/-- **A failing call** leaves the tree as it was. -/
theorem call_failed (h : Inv cfg s t free) (hcopies : Untouched cfg.policy) (c : Call V)
    (hreply : (call cfg s c).1 = some (.status st)) (hst : st ≠ .ok) :
    SameTree s (call cfg s c).2 t := by
  cases c with
  | insert elem =>
    cases elem with
    | none => exact h.sameTree
    | some elem =>
      obtain ⟨st', u, heq, -⟩ := insert_inv h elem
      have hcall : call cfg s (.insert (some elem)) = (some (.status st'), u) := by
        simp only [call, heq, replyStatus]
      rw [hcall] at hreply ⊢
      obtain rfl : st' = st := Reply.status.inj (Option.some.inj hreply)
      exact insert_failed h heq hst
  | remove key =>
    cases key with
    | none => exact h.sameTree
    | some key =>
      obtain ⟨st', u, heq, -⟩ := remove_truthful h key
      have hcall : call cfg s (.remove (some key)) = (some (.status st'), u) := by
        simp only [call, heq, replyStatus]
      rw [hcall] at hreply ⊢
      obtain rfl : st' = st := Reply.status.inj (Option.some.inj hreply)
      exact (remove_failed hcopies heq hst).sameTree h.shape.spells
  | clear =>
    obtain ⟨u, free', heq, -⟩ := clear_cases h
    simp only [call, heq] at hreply
    cases hreply
  | get key out => exact h.sameTree
  | contains key => exact h.sameTree
  | peekMin out => exact h.sameTree
  | peekMax out => exact h.sameTree
  | foreach visit => exact h.sameTree

/-! ## Runs -/

/-- **The nodes of a tree over a pool** are conserved by any calls, whatever the callbacks return:
every call returns, and one whose status is not ok leaves the tree as it was, if the copies that fail
leave their destinations. -/
theorem nodes_conserved (cfg : BTreeConfig V) (hpool : cfg.source.fixedPool = true)
    (links : ℕ → Option ℕ) (memory : ℕ → V) (calls : List (Call V)) :
    ∃ t free, Conserved cfg (Mealy.final (call cfg) (init cfg links memory) calls) t free ∧
      ∀ c, (∃ reply, (call cfg (Mealy.final (call cfg) (init cfg links memory) calls) c).1 =
          some reply) ∧
        (Untouched cfg.policy → ∀ st,
          (call cfg (Mealy.final (call cfg) (init cfg links memory) calls) c).1 =
              some (.status st) →
          st ≠ .ok →
            SameTree (Mealy.final (call cfg) (init cfg links memory) calls)
              (call cfg (Mealy.final (call cfg) (init cfg links memory) calls) c).2 t) := by
  have hcalls : Mealy.EveryCall (call cfg) (fun _ _ => True) (init cfg links memory) calls :=
    Mealy.everyCall_true _ calls
  obtain ⟨t, free, h⟩ := hcalls.final_invariant (fun s => ∃ t free, Inv cfg s t free)
    (fun s c ⟨t, free, h⟩ _ => (call_inv h c).2) ⟨_, inv_init cfg links memory⟩
  exact ⟨t, free, h.conserved hpool, fun c => ⟨(call_inv h c).1, fun hcopies st hreply hst =>
    call_failed h hcopies c hreply hst⟩⟩

/-- A tree over a pool of five nodes, whose fourth copy fails. -/
def fourthFails : BTreeConfig ℕ where
  policy := ⟨fun n dst src => if n = 3 then (.oom, dst) else (.ok, src), fun elem => elem⟩
  needsDestroy := false
  source := ⟨true, 5, fun _ => .unsupported⟩
  compare a b := (a : ℤ) - b

/-- In a run of three insertions the root gets two children, and its removal fails. -/
theorem nodes_conserved_fourthFails :
    (call fourthFails (Mealy.final (call fourthFails) (init fourthFails (fun _ => none) fun _ => 0)
        [.insert (some 20), .insert (some 10), .insert (some 30)]) (.remove (some 20))).1 =
      some (.status .oom) ∧
    ∃ t free, Conserved fourthFails (Mealy.final (call fourthFails)
        (init fourthFails (fun _ => none) fun _ => 0)
        [.insert (some 20), .insert (some 10), .insert (some 30)]) t free ∧
      SameTree (Mealy.final (call fourthFails) (init fourthFails (fun _ => none) fun _ => 0)
          [.insert (some 20), .insert (some 10), .insert (some 30)])
        (call fourthFails (Mealy.final (call fourthFails)
          (init fourthFails (fun _ => none) fun _ => 0)
          [.insert (some 20), .insert (some 10), .insert (some 30)]) (.remove (some 20))).2 t := by
  have hreply : (call fourthFails (Mealy.final (call fourthFails)
      (init fourthFails (fun _ => none) fun _ => 0)
      [.insert (some 20), .insert (some 10), .insert (some 30)]) (.remove (some 20))).1 =
        some (.status .oom) := by
    decide +kernel
  obtain ⟨t, free, hconserved, hcall⟩ := nodes_conserved fourthFails rfl (fun _ => none)
    (fun _ => 0) [.insert (some 20), .insert (some 10), .insert (some 30)]
  refine ⟨hreply, t, free, hconserved, (hcall (.remove (some 20))).2 ?_ .oom hreply (by decide)⟩
  intro n dst src hfailed
  show (if n = 3 then ((.oom, dst) : Status × ℕ) else (.ok, src)).2 = dst
  by_cases hn : n = 3
  · rw [if_pos hn]
  · exact absurd (congrArg Prod.fst (if_neg hn)) hfailed

end BTree

end Memkit
