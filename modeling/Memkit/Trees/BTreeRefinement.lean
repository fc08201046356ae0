import Memkit.Sequences.NodeSequence
import Memkit.Trees.BTreeOperations
import Memkit.Trees.OrderedSetReference

/-! # The tree map is an ordered set

With copies that do not fail and a comparator that is a total preorder, `btree_map_core` over a pool
answers as the reference ordered set of the elements of its nodes.

* **`Ordered`** — the tree stands for the elements of its nodes, which strictly increase.
* **`ordered_call`** — the step of the simulation.
* **`refines_orderedSet`** — the refinement. -/

namespace Memkit

open LinkedTree NodeView OrderedSet

namespace BTree

variable {V : Type*} {cfg : BTreeConfig V} {s u : BTree V} {t : BinaryTree ℕ}
  {free nodes as bs : List ℕ} {slot : ℕ} {xs : List V} {key : V}

/-- The tree stands for a sorted list of elements. -/
structure Ordered (cfg : BTreeConfig V) (s : BTree V) (xs : List V) : Prop where
  represents : (view cfg s).Represents xs
  sorted : Sorted cfg.compare xs

/-- The order of the elements says where every search goes. -/
theorem graded_of_sorted (hcmp : TotalPreorder cfg.compare)
    (hsorted : Sorted cfg.compare (nodes.map s.cells.contents)) (key : V) :
    Graded (direction cfg s key) nodes := by
  unfold Sorted at hsorted
  rw [List.pairwise_map] at hsorted
  exact hsorted.imp fun hij hle => hcmp.lt_of_le_of_lt hle hij

/-- What is around a node is around its element. -/
theorem Around.map (h : Around (direction cfg s key) as bs) :
    OrderedSet.Around cfg.compare key (as.map s.cells.contents) (bs.map s.cells.contents) := by
  constructor
  · intro x hx
    obtain ⟨i, hi, rfl⟩ := List.mem_map.mp hx
    exact h.before i hi
  · intro x hx
    obtain ⟨i, hi, rfl⟩ := List.mem_map.mp hx
    exact h.behind i hi

/-- A search ends at the element that the reference finds. -/
theorem findNode_eq (hcmp : TotalPreorder cfg.compare) (h : Inv cfg s t free)
    (hsorted : Sorted cfg.compare ((inorder t).map s.cells.contents)) (key : V) :
    (findNode cfg s key).map (Option.map s.cells.contents) =
      some (find cfg.compare ((inorder t).map s.cells.contents) key) := by
  have hgraded := graded_of_sorted hcmp hsorted key
  obtain ⟨as, bs, hfocus, has, hbs, hend⟩ := locate_focus hgraded .root
  have heq : findNode cfg s key = _ := findLoop_eq cfg key h.shape.spells h.height_le
  have hspells := hfocus.spells h.shape.spells
  have hinorder := hfocus.inorder_eq
  rw [heq, Option.map_some, hinorder]
  generalize (locate (direction cfg s key) .root t).1 = k at hfocus hspells ⊢
  generalize (locate (direction cfg s key) .root t).2 = sub at hfocus hspells hend ⊢
  rcases hend with rfl | ⟨slot, tl, tr, rfl, hzero, htl, htr⟩
  · have hnull : s.readLink k = none := hspells
    have haround : Around (direction cfg s key) as bs := ⟨has, hbs⟩
    rw [hnull, inorder_nil, List.append_nil, List.map_append, find_of_around_none haround.map]
    rfl
  · have haround : Around (direction cfg s key) (as ++ inorder tl) (inorder tr ++ bs) := by
      refine ⟨fun i hi => ?_, fun i hi => ?_⟩
      · exact (List.mem_append.mp hi).elim (has i) (htl i)
      · exact (List.mem_append.mp hi).elim (htr i) (hbs i)
    have hsplit : as ++ (inorder tl ++ slot :: inorder tr) ++ bs =
        (as ++ inorder tl) ++ slot :: (inorder tr ++ bs) := by simp
    rw [hspells.1, inorder_node, hsplit, List.map_append, List.map_cons,
      find_of_around haround.map hzero]
    rfl

/-- **Inserting** is as on the reference. -/
theorem Inv.insert (h : Inv cfg s t free) (hcmp : TotalPreorder cfg.compare)
    (hpolicy : cfg.policy.NonFailing) (hpool : cfg.source.fixedPool = true)
    (hsorted : Sorted cfg.compare ((inorder t).map s.cells.contents)) (elem : V) :
    ∃ u, BTree.insert cfg s (some elem) = some ((OrderedSet.insert cfg.compare cfg.source.capacity
        ((inorder t).map s.cells.contents) elem).1, u) ∧
      Ordered cfg u (OrderedSet.insert cfg.compare cfg.source.capacity
        ((inorder t).map s.cells.contents) elem).2 := by
  obtain ⟨as, bs, st, u, heq, haround, hcases⟩ :=
    insert_cases h (graded_of_sorted hcmp hsorted elem)
  refine ⟨u, ?_⟩
  rw [heq]
  rcases hcases with ⟨hinorder, hinserts⟩ | ⟨slot, hinorder, hzero, rfl, rfl⟩
  · -- a new element
    obtain ⟨hst, hrep⟩ := hinserts.represents hpolicy hpool
    rw [hinorder, List.map_append] at hsorted ⊢
    rw [insert_of_around_none haround.map]
    unfold Sequence.insert at hst hrep
    rw [List.map_append, show (view cfg s).cells = s.cells from rfl] at hst hrep
    by_cases hfull : cfg.source.capacity ≤
        (as.map s.cells.contents ++ bs.map s.cells.contents).length
    · rw [if_pos hfull] at hst hrep ⊢
      exact ⟨by rw [hst], hrep, hsorted⟩
    · rw [if_neg hfull] at hst hrep ⊢
      refine ⟨by rw [hst], ?_, hsorted.insert_around hcmp haround.map⟩
      have hlength : as.length = (as.map s.cells.contents).length := (List.length_map _).symm
      rw [hlength] at hrep
      exact Sequence.insertIdx_append (as.map s.cells.contents) (bs.map s.cells.contents) elem ▸ hrep
  · -- one in the place of an equivalent one
    have hnodup := h.shape.nodup
    rw [hinorder] at hnodup
    have hslot : slot ∉ as ++ bs := (List.nodup_cons.mp (List.nodup_middle.mp hnodup)).1
    rw [List.mem_append, not_or] at hslot
    rw [hinorder, List.map_append, List.map_cons] at hsorted ⊢
    rw [insert_of_around haround.map hzero]
    refine ⟨rfl, ⟨inorder t, ⟨t, free, ⟨h.shape.withCells _, h.size_eq⟩, rfl⟩, ?_⟩,
      (hsorted.remove_around).insert_around hcmp haround.map⟩
    show _ = (inorder t).map (Function.update s.cells.contents slot _)
    rw [hpolicy.copyAssign, hinorder, List.map_append, List.map_cons, Function.update_self,
      Cells.map_update_of_notMem hslot.1, Cells.map_update_of_notMem hslot.2]

/-- **Removing** is as on the reference. -/
theorem Inv.remove (h : Inv cfg s t free) (hcmp : TotalPreorder cfg.compare)
    (hpolicy : cfg.policy.NonFailing)
    (hsorted : Sorted cfg.compare ((inorder t).map s.cells.contents)) (key : V) :
    ∃ u, BTree.remove cfg s (some key) =
        some ((OrderedSet.remove cfg.compare ((inorder t).map s.cells.contents) key).1, u) ∧
      Ordered cfg u (OrderedSet.remove cfg.compare ((inorder t).map s.cells.contents) key).2 := by
  obtain ⟨as, bs, st, u, heq, haround, hcases⟩ :=
    remove_cases h (graded_of_sorted hcmp hsorted key)
  refine ⟨u, ?_⟩
  rw [heq]
  rcases hcases with ⟨hinorder, rfl, rfl⟩ | ⟨slot, hinorder, hzero, hremoves⟩
  · have hself : Ordered cfg u ((inorder t).map u.cells.contents) :=
      ⟨⟨inorder t, ⟨t, free, h, rfl⟩, rfl⟩, hsorted⟩
    rw [hinorder, List.map_append] at hself ⊢
    rw [remove_of_around_none haround.map]
    exact ⟨rfl, hself⟩
  rw [hinorder, List.map_append, List.map_cons] at hsorted ⊢
  rw [remove_of_around haround.map hzero]
  rcases hremoves with ⟨-, rfl, hremoved⟩ | ⟨-, -, -, hrestored⟩ |
    ⟨succ, cs, -, -, rfl, rfl, htook⟩
  · refine ⟨rfl, ⟨as ++ bs, hremoved.shape, ?_⟩, hsorted.remove_around⟩
    rw [List.map_congr_left hremoved.contents, List.map_append]
    rfl
  · exact absurd hpolicy hrestored.may_fail
  · -- the successor's element is now in the target
    have hfront := List.map_congr_left fun i hi => htook.contents i (List.mem_append_left cs hi)
    have hback := List.map_congr_left fun i hi => htook.contents i (List.mem_append_right as hi)
    have hitems : (as ++ slot :: cs).map (view cfg u).cells.contents =
        as.map s.cells.contents ++ (succ :: cs).map s.cells.contents := by
      rw [List.map_append, List.map_cons, hfront, hback, htook.value hpolicy.faithful]
      rfl
    exact ⟨rfl, ⟨as ++ slot :: cs, htook.shape, hitems.symm⟩, hsorted.remove_around⟩

/-- The node where a walk to an end of the tree stops. -/
theorem Inv.peekEnd (h : Inv cfg s t free) {child : ℕ → Option ℕ} {found : Option ℕ}
    (hwalk : s.root.bind (walkLoop child (rounds cfg s)) = found)
    (hfound : found = none ↔ inorder t = []) (out : Option V) :
    peekEnd cfg s child out = some (fetch (found.map s.cells.contents) .empty out) := by
  unfold BTree.peekEnd fetch
  cases out with
  | none => rfl
  | some out =>
    simp only [h.size_eq, hwalk]
    by_cases hempty : inorder t = []
    · rw [if_pos (by rw [hempty]; rfl), hfound.mpr hempty]
      rfl
    · have hne : (inorder t).length ≠ 0 := fun hlen => hempty (List.length_eq_zero_iff.mp hlen)
      rw [if_neg hne]
      cases found with
      | none => exact absurd (hfound.mp rfl) hempty
      | some node => rfl

/-- **`peek_min`** reads the first element. -/
theorem Inv.peekMin (h : Inv cfg s t free) (out : Option V) :
    peekMin cfg s out = some (fetch ((inorder t).map s.cells.contents).head? .empty out) := by
  rw [List.head?_map]
  refine h.peekEnd ?_ List.head?_eq_none_iff out
  cases t with
  | nil =>
    have hnull : s.root = none := h.shape.spells
    rw [hnull]
    rfl
  | node a tl tr =>
    have hroot : s.root = some a := h.shape.spells.1
    have hheight := h.height_le
    rw [BinaryTree.height] at hheight
    rw [hroot]
    exact walkLoop_left h.shape.spells (by omega)

/-- **`peek_max`** reads the last element. -/
theorem Inv.peekMax (h : Inv cfg s t free) (out : Option V) :
    peekMax cfg s out = some (fetch ((inorder t).map s.cells.contents).getLast? .empty out) := by
  rw [List.getLast?_map]
  refine h.peekEnd ?_ List.getLast?_eq_none_iff out
  cases t with
  | nil =>
    have hnull : s.root = none := h.shape.spells
    rw [hnull]
    rfl
  | node a tl tr =>
    have hroot : s.root = some a := h.shape.spells.1
    have hheight := h.height_le
    rw [BinaryTree.height] at hheight
    rw [hroot]
    exact walkLoop_right h.shape.spells (by omega)

theorem call_insert {elem : Option V} {st : Status} (h : BTree.insert cfg s elem = some (st, u)) :
    BTree.call cfg s (.insert elem) = (some (.status st), u) := by
  simp only [BTree.call, h, replyStatus]

theorem call_remove {key : Option V} {st : Status} (h : BTree.remove cfg s key = some (st, u)) :
    BTree.call cfg s (.remove key) = (some (.status st), u) := by
  simp only [BTree.call, h, replyStatus]

/-- **Every call** on the tree is answered as on the reference. -/
theorem ordered_call (h : Ordered cfg s xs) (hcmp : TotalPreorder cfg.compare)
    (hpolicy : cfg.policy.NonFailing) (hpool : cfg.source.fixedPool = true) (c : Call V) :
    (BTree.call cfg s c).1 = some (OrderedSet.call cfg.compare cfg.source.capacity xs c).1 ∧
      Ordered cfg (BTree.call cfg s c).2
        (OrderedSet.call cfg.compare cfg.source.capacity xs c).2 := by
  -- a call that changes nothing keeps the order it had
  have hself := h
  obtain ⟨⟨nodes, ⟨t, free, hinv, rfl⟩, hxs⟩, hsorted⟩ := h
  obtain rfl : xs = (inorder t).map s.cells.contents := hxs
  -- the search down the tree finds what the reference finds in the list
  have hfind := findNode_eq hcmp hinv hsorted
  cases c with
  | insert elem =>
    cases elem with
    | none => exact ⟨rfl, hself⟩
    | some elem =>
      obtain ⟨u, heq, hordered⟩ := hinv.insert hcmp hpolicy hpool hsorted elem
      rw [call_insert heq]
      exact ⟨rfl, hordered⟩
  | get key out =>
    cases key with
    | none => exact ⟨rfl, hself⟩
    | some key =>
      refine ⟨?_, hself⟩
      show (get cfg s (some key) out).map Reply.ofOut = _
      cases out with
      | none => rfl
      | some out =>
        obtain ⟨node, hnode, hread⟩ := Option.map_eq_some_iff.mp (hfind key)
        simp only [get, hnode, Option.map_some, OrderedSet.call, ← hread, fetch]
        cases node <;> rfl
  | contains key =>
    cases key with
    | none => exact ⟨rfl, hself⟩
    | some key =>
      refine ⟨?_, hself⟩
      show (contains cfg s (some key)).map Reply.contains = _
      obtain ⟨node, hnode, hread⟩ := Option.map_eq_some_iff.mp (hfind key)
      simp only [contains, hnode, Option.map_some, OrderedSet.call, ← hread, Option.isSome_map]
  | remove key =>
    cases key with
    | none => exact ⟨rfl, hself⟩
    | some key =>
      obtain ⟨u, heq, hordered⟩ := hinv.remove hcmp hpolicy hsorted key
      rw [call_remove heq]
      exact ⟨rfl, hordered⟩
  | clear =>
    obtain ⟨u, free', heq, hinv', -⟩ := clear_cases hinv
    have hcall : BTree.call cfg s .clear = (some .done, u) := by simp only [BTree.call, heq]
    rw [hcall]
    exact ⟨rfl, ⟨[], ⟨.nil, free', hinv', rfl⟩, rfl⟩, List.Pairwise.nil⟩
  | peekMin out =>
    refine ⟨?_, hself⟩
    show (peekMin cfg s out).map Reply.ofOut = _
    rw [hinv.peekMin]
    rfl
  | peekMax out =>
    refine ⟨?_, hself⟩
    show (peekMax cfg s out).map Reply.ofOut = _
    rw [hinv.peekMax]
    rfl
  | foreach visit =>
    refine ⟨?_, hself⟩
    -- the recursion of `traverse_node` visits the nodes in the order of the list
    have hvisits : foreach cfg s .inorder visit = _ :=
      traverseNode_eq .inorder visit hinv.shape.spells hinv.height_le
    show (foreach cfg s .inorder visit).map Reply.ofVisits = _
    rw [hvisits, traversed_inorder]
    rfl

/-! ## Runs -/

/-- What holds of a tree that stands for `xs`: its elements strictly increase and are those of its
nodes, as many as `size_` counts; the least and the greatest are at the ends; and an insertion of a
new element is answered with `full` exactly if all nodes of the pool are in use. -/
structure Sound (cfg : BTreeConfig V) (s : BTree V) (xs : List V) : Prop where
  sorted : Sorted cfg.compare xs
  size_eq : s.size = xs.length
  visits : ∀ visit, (BTree.call cfg s (.foreach visit)).1 = some (.ofVisits (visitLoop visit [] xs))
  least : ∀ out x, (BTree.call cfg s (.peekMin (some out))).1 = some (.value .ok (some x)) →
    x ∈ xs ∧ ∀ y ∈ xs, cfg.compare x y ≤ 0
  greatest : ∀ out x, (BTree.call cfg s (.peekMax (some out))).1 = some (.value .ok (some x)) →
    x ∈ xs ∧ ∀ y ∈ xs, cfg.compare y x ≤ 0
  full_iff : ∀ elem, (∀ x ∈ xs, cfg.compare elem x ≠ 0) →
    ((BTree.call cfg s (.insert (some elem))).1 = some (.status .full) ↔
      xs.length = cfg.source.capacity)

theorem Ordered.sound (h : Ordered cfg s xs) (hcmp : TotalPreorder cfg.compare)
    (hpolicy : cfg.policy.NonFailing) (hpool : cfg.source.fixedPool = true) : Sound cfg s xs := by
  have hcall := ordered_call h hcmp hpolicy hpool
  obtain ⟨nodes, ⟨t, free, hinv, rfl⟩, hxs⟩ := h.represents
  have hlength : s.size = xs.length := by
    rw [hxs, List.length_map]
    exact hinv.size_eq
  have hle : xs.length ≤ cfg.source.capacity := by
    have hadd := hinv.shape.apart.length_add hpool
    rw [List.append_nil, ← hinv.size_eq, hlength] at hadd
    omega
  -- what a reading that is ok has read
  have hfetch : ∀ (found : Option V) (out x : V),
      Reply.ofOut (fetch found .empty (some out)) = .value .ok (some x) → found = some x := by
    intro found out x heq
    cases found with
    | none => cases heq
    | some y => exact congrArg (fun r : Reply V => match r with
      | .value _ out => out
      | _ => none) heq
  refine ⟨h.sorted, hlength, fun visit => (hcall (.foreach visit)).1, fun out x heq => ?_,
    fun out x heq => ?_, fun elem hnew => ?_⟩
  · have hhead := hfetch _ out x (Option.some.inj ((hcall (.peekMin (some out))).1.symm.trans heq))
    exact ⟨List.mem_of_head? hhead, h.sorted.head_le hcmp hhead⟩
  · have hlast := hfetch _ out x (Option.some.inj ((hcall (.peekMax (some out))).1.symm.trans heq))
    exact ⟨List.mem_of_getLast? hlast, h.sorted.le_getLast hcmp hlast⟩
  · have hnone : find cfg.compare xs elem = none := by
      rw [find, List.find?_eq_none]
      exact fun x hx => by simpa using hnew x hx
    rw [(hcall (.insert (some elem))).1]
    simp only [OrderedSet.call, OrderedSet.insert, hnone]
    by_cases hfull : cfg.source.capacity ≤ xs.length
    · simp [le_antisymm hle hfull]
    · have hne : xs.length ≠ cfg.source.capacity := by omega
      simp [hfull, hne]

theorem ordered_init (cfg : BTreeConfig V) (links : ℕ → Option ℕ) (memory : ℕ → V) :
    Ordered cfg (init cfg links memory) [] := by
  obtain ⟨free, hinv⟩ := inv_init cfg links memory
  exact ⟨⟨[], ⟨.nil, free, hinv, rfl⟩, rfl⟩, List.Pairwise.nil⟩

/-- **The tree map is an ordered set**: over any calls on a tree over a pool it answers as the
reference set, and after them it is sound. -/
theorem refines_orderedSet (cfg : BTreeConfig V) (hcmp : TotalPreorder cfg.compare)
    (hpolicy : cfg.policy.NonFailing) (hpool : cfg.source.fixedPool = true)
    (links : ℕ → Option ℕ) (memory : ℕ → V) (calls : List (Call V)) :
    Mealy.outputs (BTree.call cfg) (init cfg links memory) calls =
        (Mealy.outputs (OrderedSet.call cfg.compare cfg.source.capacity) [] calls).map some ∧
      Sound cfg (Mealy.final (BTree.call cfg) (init cfg links memory) calls)
        (Mealy.final (OrderedSet.call cfg.compare cfg.source.capacity) [] calls) := by
  obtain ⟨houtputs, hordered⟩ := Mealy.simulation_map some (Ordered cfg)
    (fun s xs c h => ordered_call h hcmp hpolicy hpool c) (ordered_init cfg links memory) calls
  exact ⟨houtputs, hordered.sound hcmp hpolicy hpool⟩

/-- A tree over a pool of four nodes, ordered by the tens. -/
def tensTree : BTreeConfig ℕ where
  policy := .bytewise ℕ
  needsDestroy := false
  source := ⟨true, 4, fun _ => .unsupported⟩
  compare a b := (a / 10 : ℤ) - (b / 10 : ℤ)

/-- Insertions, a replacement in the full tree, and the removal of a node with two children. -/
def tensTreeCalls : List (Call ℕ) :=
  [.insert (some 20), .insert (some 10), .insert (some 40), .insert (some 30), .insert (some 50),
    .insert (some 25), .foreach fun _ => .ok, .remove (some 20), .foreach fun _ => .ok,
    .peekMin (some 0), .peekMax (some 0), .get (some 31) (some 0), .remove (some 20)]

/-- The comparator by tens is a total preorder. -/
theorem totalPreorder_tensTree : TotalPreorder tensTree.compare where
  swap a b := by
    show ((a / 10 : ℤ) - (b / 10 : ℤ) < 0) ↔ (0 < (b / 10 : ℤ) - (a / 10 : ℤ))
    omega
  trans a b c hab hbc := by
    have hab' : (a / 10 : ℤ) - (b / 10 : ℤ) ≤ 0 := hab
    have hbc' : (b / 10 : ℤ) - (c / 10 : ℤ) ≤ 0 := hbc
    show (a / 10 : ℤ) - (c / 10 : ℤ) ≤ 0
    omega

/-- The tree is an ordered set in such a run. -/
theorem refines_orderedSet_tensTreeCalls :
    Mealy.outputs (BTree.call tensTree) (init tensTree (fun _ => some 0) fun _ => 0) tensTreeCalls =
        [.status .ok, .status .ok, .status .ok, .status .ok, .status .full, .status .ok,
          .visits .ok [10, 25, 30, 40], .status .ok, .visits .ok [10, 30, 40], .value .ok (some 10),
          .value .ok (some 40), .value .ok (some 30), .status .notFound].map some ∧
      Mealy.outputs (BTree.call tensTree) (init tensTree (fun _ => some 0) fun _ => 0) tensTreeCalls =
        (Mealy.outputs (OrderedSet.call tensTree.compare 4) [] tensTreeCalls).map some :=
  ⟨by decide +kernel, (refines_orderedSet tensTree totalPreorder_tensTree
    (ElementPolicy.nonFailing_bytewise ℕ) rfl (fun _ => some 0) (fun _ => 0) tensTreeCalls).1⟩

end BTree

end Memkit
