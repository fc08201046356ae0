import Memkit.Core.NodeBlocks
import Memkit.Sequences.DListOperations
import Memkit.Sequences.NodeSequence
import Memkit.Sequences.SListOperations

/-! # The blocks of the lists

What the calls of `list_core` and `dlist_core` obtain and free, at the places of `std::malloc` and
`std::free`: a node for each insertion, which is freed again if its copy fails, and the node that a
removal takes out.

* **`callBlocks`** — the events of each list, call by call.
* **`nodeCore_sound`** — they fit what the calls do to the nodes. -/

namespace Memkit

open LinkedChain NodeView NodeBlocks
open Ledger (Event)

variable {V : Type*} {nodes free as bs : List ℕ} {slot : ℕ}

/-! ## The singly linked list -/

namespace SList

variable {cfg : SListConfig V} {s t : SList V}

/-- The nodes are of the heap, in a build with the heap, unless they are of a pool. -/
def ofHeap (cfg : SListConfig V) : Bool := !cfg.source.fixedPool

/-- The events of `make_node`: a failed copy frees the node. -/
def makeNodeBlocks (cfg : SListConfig V) (s : SList V) (value : V) : List (Event (Block NodeArea)) :=
  match acquireNode cfg s with
  | (.error _, _) => []
  | (.ok slot, s) =>
    granted (ofHeap cfg) slot ++
      if (s.cells.copyConstruct cfg.policy slot value).1 ≠ .ok then freed (ofHeap cfg) slot else []

/-- The events of `insert_at`. -/
def insertAtBlocks (cfg : SListConfig V) (s : SList V) (index : ℕ) (value : Option V) :
    List (Event (Block NodeArea)) :=
  match value with
  | none => []
  | some value =>
    if s.size < index then []
    else if index = 0 then makeNodeBlocks cfg s value
    else if index = s.size then makeNodeBlocks cfg s value
    else
      match nodeAt s index with
      | (some _, some _) => makeNodeBlocks cfg s value
      | _ => []

/-- The events of a removal that found its node. -/
def removeLinkedBlocks (cfg : SListConfig V) (s : SList V) (slot : ℕ) (out : Option V) :
    List (Event (Block NodeArea)) :=
  taken (ofHeap cfg) slot (takeValue cfg s slot out).1.1

/-- The events of `pop_front`. -/
def popFrontBlocks (cfg : SListConfig V) (s : SList V) (out : Option V) :
    List (Event (Block NodeArea)) :=
  if s.size = 0 then []
  else
    match s.head with
    | none => []
    | some current => removeLinkedBlocks cfg s current out

/-- The events of `pop_back`. -/
def popBackBlocks (cfg : SListConfig V) (s : SList V) (out : Option V) :
    List (Event (Block NodeArea)) :=
  if s.size = 0 then []
  else
    match nodeAt s (s.size - 1) with
    | (none, _) => []
    | (some current, _) => removeLinkedBlocks cfg s current out

/-- The events of `remove_at`. -/
def removeAtBlocks (cfg : SListConfig V) (s : SList V) (index : ℕ) (out : Option V) :
    List (Event (Block NodeArea)) :=
  if s.size ≤ index then []
  else if index = 0 then popFrontBlocks cfg s out
  else if index = s.size - 1 then popBackBlocks cfg s out
  else
    match nodeAt s index with
    | (some current, some _) => removeLinkedBlocks cfg s current out
    | _ => []

/-- The events of `remove_first`. -/
def removeFirstBlocks (cfg : SListConfig V) (s : SList V) (pred : V → Bool) (out : Option V) :
    List (Event (Block NodeArea)) :=
  match findLoop pred s.cells.contents s.next (rounds cfg s) 0 s.head with
  | some (some index) => removeAtBlocks cfg s index out
  | _ => []

/-- The nodes that the loop of `clear` frees. -/
def clearLoopNodes (cfg : SListConfig V) : ℕ → SList V → List ℕ
  | rounds, s =>
    match s.head with
    | none => []
    | some current =>
      match rounds with
      | 0 => []
      | rounds + 1 =>
        let s := unlinkFront s
        let s := destroyNodeValue cfg s current
        current :: clearLoopNodes cfg rounds (releaseNode cfg s current)

/-- The events of `clear`. -/
def clearBlocks (cfg : SListConfig V) (s : SList V) : List (Event (Block NodeArea)) :=
  (clearLoopNodes cfg (rounds cfg s) s).flatMap (freed (ofHeap cfg))

/-- The events of a call. -/
def callBlocks (cfg : SListConfig V) (s : SList V) : Call V → List (Event (Block NodeArea))
  | .pushFront value => makeNodeBlocks cfg s value
  | .pushBack value => makeNodeBlocks cfg s value
  | .insertAt index value => insertAtBlocks cfg s index value
  | .popFront out => popFrontBlocks cfg s out
  | .popBack out => popBackBlocks cfg s out
  | .removeAt index out => removeAtBlocks cfg s index out
  | .removeFirst pred out => removeFirstBlocks cfg s pred out
  | .clear => clearBlocks cfg s
  | .peekFront _ => []
  | .peekBack _ => []
  | .peekAt _ _ => []
  | .forEach _ => []

/-- The list with what it does to the heap. -/
def nodeCore (cfg : SListConfig V) : NodeCore (SList V) (Call V) (Option (Answer V)) where
  call := SList.call cfg
  blocks := callBlocks cfg
  clear := clear cfg
  clearBlocks := clearBlocks cfg

/-- **`make_node`** that fails has freed what it obtained. -/
theorem makeNodeBlocks_failed {st : Status} (h : Inv cfg s nodes free) (value : V)
    (hfailed : makeNode cfg s value = (.error st, t)) {shape : List ℕ → Prop}
    (hshape : shape nodes) : Step (ofHeap cfg) nodes shape (makeNodeBlocks cfg s value) := by
  have hapart := h.shape.apart
  rw [List.append_nil] at hapart
  unfold makeNode acquireNode at hfailed
  unfold makeNodeBlocks acquireNode
  rcases hapart.acquire with ⟨st', pool, heq, -⟩ | ⟨slot, pool, free', heq, hnew, -⟩
  · rw [heq]
    exact .keep hshape
  · rw [heq] at hfailed ⊢
    dsimp only at hfailed ⊢
    by_cases hok : (s.cells.copyConstruct cfg.policy slot value).1 ≠ .ok
    · rw [if_pos hok]
      exact .giveBack hshape hnew
    · rw [if_neg hok] at hfailed
      cases congrArg Prod.fst hfailed

/-- **`make_node`** that returns a node has obtained it. -/
theorem makeNodeBlocks_ok (value : V) (hok : makeNode cfg s value = (.ok slot, t)) :
    makeNodeBlocks cfg s value = granted (ofHeap cfg) slot := by
  unfold makeNode at hok
  unfold makeNodeBlocks
  generalize acquireNode cfg s = r at hok ⊢
  obtain ⟨result, u⟩ := r
  cases result with
  | error st => cases congrArg Prod.fst hok
  | ok slot' =>
    dsimp only at hok ⊢
    by_cases hcopy : (u.cells.copyConstruct cfg.policy slot' value).1 ≠ .ok
    · rw [if_pos hcopy] at hok
      cases congrArg Prod.fst hok
    · rw [if_neg hcopy] at hok ⊢
      rw [List.append_nil, Except.ok.inj (congrArg Prod.fst hok)]

/-- **An insertion** obtains the node that it links. -/
theorem insertBetween_step (h : Inv cfg s (as ++ bs) free) (value : V) :
    Step (ofHeap cfg) (as ++ bs)
      (view cfg (insertBetween cfg s value as.getLast? bs.head?).2).shape
      (makeNodeBlocks cfg s value) := by
  unfold insertBetween insertLinked
  rcases makeNode_cases h value with
    ⟨st, t, heq, -, hkept, -⟩ | ⟨slot, t, free', heq, hshape, hsize, -⟩
  · rw [heq]
    exact makeNodeBlocks_failed h value heq hkept.shape
  · rw [makeNodeBlocks_ok value heq, heq]
    refine .obtain ⟨free', hshape.splice.congr rfl rfl rfl, ?_⟩ hshape.spare_notMem
    show t.size + 1 = _
    rw [hsize, h.size_eq]
    simp only [List.length_append, List.length_cons]
    omega

/-- **`insert_at`** any index. -/
theorem insertAt_step (h : Inv cfg s nodes free) (index : ℕ) (value : Option V) :
    Step (ofHeap cfg) nodes (view cfg (insertAt cfg s index value).2).shape
      (insertAtBlocks cfg s index value) := by
  cases value with
  | none => exact .keep ⟨free, h⟩
  | some value =>
    have hsize := h.size_eq
    by_cases hindex : s.size < index
    · rw [insertAt, insertAtBlocks, if_pos hindex, if_pos hindex]
      exact .keep ⟨free, h⟩
    have hle : index ≤ nodes.length := by omega
    have hevents : insertAtBlocks cfg s index (some value) = makeNodeBlocks cfg s value := by
      rw [insertAtBlocks, if_neg hindex]
      by_cases hfront : index = 0
      · rw [if_pos hfront]
      by_cases hback : index = s.size
      · rw [if_neg hfront, if_pos hback]
      have hlt : index < nodes.length := by omega
      obtain ⟨prev, hprev⟩ := exists_getLast?_take hfront hle
      rw [if_neg hfront, if_neg hback, nodeAt_eq h hle, List.getElem?_eq_getElem hlt, hprev]
    rw [insertAt_eq h value hle, hevents]
    rw [← List.take_append_drop index nodes] at h
    have hstep := insertBetween_step h value
    rwa [List.take_append_drop] at hstep

/-- The events of a removal are told by its status. -/
theorem removeLinkedBlocks_eq (cfg : SListConfig V) (s : SList V) (slot : ℕ) (out : Option V)
    (unlink : SList V → SList V) :
    removeLinkedBlocks cfg s slot out =
      taken (ofHeap cfg) slot (removeLinked cfg s slot out unlink).1.1 := by
  unfold removeLinkedBlocks removeLinked
  dsimp only
  by_cases hok : (takeValue cfg s slot out).1.1 ≠ .ok
  · rw [if_pos hok]
  · rw [if_neg hok, not_not.mp hok]

/-- **A removal at an index** frees the node there. -/
theorem TakesAt.step {index : ℕ} {out : Option V} {r : (Status × Option V) × SList V}
    (htakes : TakesAt cfg s nodes index out r) (hnodup : nodes.Nodup)
    {events : List (Event (Block NodeArea))}
    (hevents : ∀ slot, nodes[index]? = some slot → events = taken (ofHeap cfg) slot r.1.1) :
    Step (ofHeap cfg) nodes (view cfg r.2).shape events := by
  obtain ⟨as, bs, slot, rfl, rfl, htakes⟩ := htakes
  rw [hevents slot (by simp)]
  exact .takes htakes hnodup

/-- `pop_front` frees the first node. -/
theorem popFrontBlocks_eq (h : Inv cfg s nodes free) {out : Option V}
    {r : (Status × Option V) × SList V} (hr : popFront cfg s out = some r)
    (hslot : nodes[0]? = some slot) :
    popFrontBlocks cfg s out = taken (ofHeap cfg) slot r.1.1 := by
  have hhead : s.head = some slot := by rw [h.shape.chain.head_eq, List.head?_eq_getElem?, hslot]
  have hne : s.size ≠ 0 := by
    rw [h.size_eq]
    rintro hzero
    rw [List.length_eq_zero_iff.mp hzero] at hslot
    cases hslot
  unfold popFront at hr
  unfold popFrontBlocks
  rw [if_neg hne, hhead] at hr ⊢
  obtain rfl := Option.some.inj hr
  exact removeLinkedBlocks_eq cfg s slot out unlinkFront

/-- `pop_back` frees the last node. -/
theorem popBackBlocks_eq (h : Inv cfg s nodes free) (out : Option V)
    (hslot : nodes[nodes.length - 1]? = some slot) :
    popBackBlocks cfg s out = taken (ofHeap cfg) slot (popBack cfg s out).1.1 := by
  have hne : s.size ≠ 0 := by
    rw [h.size_eq]
    rintro hzero
    rw [List.length_eq_zero_iff.mp hzero] at hslot
    cases hslot
  unfold popBackBlocks popBack
  rw [if_neg hne, if_neg hne, h.size_eq, nodeAt_eq h (Nat.sub_le _ _), hslot]
  exact removeLinkedBlocks_eq cfg s slot out _

/-- `remove_at` frees the node at the index. -/
theorem removeAtBlocks_eq (h : Inv cfg s nodes free) {index : ℕ} {out : Option V}
    {r : (Status × Option V) × SList V} (hr : removeAt cfg s index out = some r)
    (hslot : nodes[index]? = some slot) :
    removeAtBlocks cfg s index out = taken (ofHeap cfg) slot r.1.1 := by
  have hsize := h.size_eq
  have hindex : index < nodes.length := (List.getElem?_eq_some_iff.mp hslot).1
  unfold removeAt at hr
  unfold removeAtBlocks
  rw [if_neg (by omega)] at hr ⊢
  by_cases hfront : index = 0
  · subst hfront
    rw [if_pos rfl] at hr ⊢
    exact popFrontBlocks_eq h hr hslot
  by_cases hback : index = s.size - 1
  · rw [if_neg hfront, if_pos hback] at hr ⊢
    obtain rfl := Option.some.inj hr
    rw [hback, hsize] at hslot
    exact popBackBlocks_eq h out hslot
  obtain ⟨prev, hprev⟩ := exists_getLast?_take hfront hindex.le
  rw [if_neg hfront, if_neg hback, nodeAt_eq h hindex.le, hslot, hprev] at hr ⊢
  obtain rfl := Option.some.inj hr
  exact removeLinkedBlocks_eq cfg s slot out _

/-- **`remove_at`** of any index. -/
theorem removeAt_step (h : Inv cfg s nodes free) (index : ℕ) (out : Option V) :
    Step (ofHeap cfg) nodes (view cfg (answerRemoval s (removeAt cfg s index out)).2).shape
      (removeAtBlocks cfg s index out) := by
  by_cases hindex : index < nodes.length
  · obtain ⟨r, heq, htakes⟩ := removeAt_cases h hindex out
    have hevents := fun slot (hslot : nodes[index]? = some slot) => removeAtBlocks_eq h heq hslot
    rw [heq]
    exact htakes.step h.shape.nodup hevents
  · have hout : s.size ≤ index := by
      rw [h.size_eq]
      exact not_lt.mp hindex
    rw [removeAt, removeAtBlocks, if_pos hout, if_pos hout]
    exact .keep ⟨free, h⟩

/-- **The loop of `clear`** frees all nodes. -/
theorem clearLoopNodes_eq (h : Shape cfg s nodes [] free) {rounds : ℕ}
    (hrounds : nodes.length ≤ rounds) : clearLoopNodes cfg rounds s = nodes := by
  induction nodes generalizing s free rounds with
  | nil =>
    have hhead : s.head = none := h.chain.head_eq
    rw [clearLoopNodes, hhead]
  | cons i is ih =>
    have hhead : s.head = some i := h.chain.head_eq
    have hcut := Shape.cut (show Shape cfg s ([] ++ i :: is) [] free from h)
    obtain ⟨free', hreleased⟩ := (hcut.destroyNodeValue i).release
    cases rounds with
    | zero => cases hrounds
    | succ rounds =>
      rw [clearLoopNodes, hhead]
      simp only [unlinkFront_eq h]
      exact congrArg (i :: ·) (ih hreleased (Nat.le_of_succ_le_succ hrounds))

/-- **`clear`** frees all nodes. -/
theorem clear_freed (h : Inv cfg s nodes free) {others : List (Block NodeArea)}
    {heap : Ledger (Block NodeArea)} (hholds : HoldsNodes (ofHeap cfg) others nodes heap) :
    HoldsNodes (ofHeap cfg) others [] (heap.replay (clearBlocks cfg s)) := by
  have hnodup := h.shape.nodup
  rw [← List.append_nil nodes] at hholds hnodup
  rw [clearBlocks, clearLoopNodes_eq h.shape h.rounds_le]
  exact hholds.freedAll hnodup

/-- **What every call obtains and frees** fits what it does to the nodes. -/
theorem nodeCore_sound (cfg : SListConfig V) :
    (nodeCore cfg).Sound (ofHeap cfg) fun s => (view cfg s).shape where
  call := by
    rintro s nodes c ⟨free, h⟩
    have hself : (view cfg s).shape nodes := ⟨free, h⟩
    -- the blocks follow the nodes: one obtained for a node that joins, one freed for a node that
    -- leaves
    show Step (ofHeap cfg) nodes (view cfg (SList.call cfg s c).2).shape (callBlocks cfg s c)
    cases c with
    | pushFront value =>
      show Step _ _ (view cfg (insertFront cfg s value).2).shape _
      rw [insertFront_eq h]
      -- an insertion between the empty part before and all the nodes
      exact insertBetween_step (show Inv cfg s ([] ++ nodes) free from h) value
    | pushBack value =>
      show Step _ _ (view cfg (insertBack cfg s value).2).shape _
      have hstep := insertBetween_step (show Inv cfg s (nodes ++ []) free by rwa [List.append_nil])
        value
      rw [List.append_nil] at hstep
      rw [insertBack_eq h]
      exact hstep
    | insertAt index value => exact insertAt_step h index value
    | popFront out =>
      show Step _ _ (view cfg (answerRemoval s (popFront cfg s out)).2).shape (popFrontBlocks cfg s out)
      -- an empty list frees nothing
      rcases popFront_cases h out with ⟨rfl, heq⟩ | ⟨r, heq, htakes⟩
      · rw [heq, popFrontBlocks, if_pos (show s.size = 0 from h.size_eq)]
        exact .keep hself
      · have hevents := fun slot (hslot : nodes[0]? = some slot) => popFrontBlocks_eq h heq hslot
        rw [heq]
        exact htakes.step h.shape.nodup hevents
    | popBack out =>
      show Step _ _ (view cfg (popBack cfg s out).2).shape (popBackBlocks cfg s out)
      rcases popBack_cases h out with ⟨rfl, heq⟩ | htakes
      · rw [heq, popBackBlocks, if_pos (show s.size = 0 from h.size_eq)]
        exact .keep hself
      · exact htakes.step h.shape.nodup fun slot hslot => popBackBlocks_eq h out hslot
    | removeAt index out => exact removeAt_step h index out
    | removeFirst pred out =>
      have hsearch : findLoop pred s.cells.contents s.next (rounds cfg s) 0 s.head = _ :=
        findLoop_zero pred h.shape.chain.forward h.rounds_le
      show Step _ _ (view cfg (answerRemoval s (removeFirst cfg s pred out)).2).shape
        (removeFirstBlocks cfg s pred out)
      rw [removeFirst, removeFirstBlocks, hsearch]
      cases (nodes.map s.cells.contents).findIdx? pred with
      | none => exact .keep hself
      | some index => exact removeAt_step h index out
    | clear =>
      obtain ⟨t, free', heq, hinv, -⟩ := clear_cases h
      refine ⟨[], ⟨free', ?_⟩, fun others heap hholds => clear_freed h hholds⟩
      simp only [SList.call, heq]
      exact hinv
    | peekFront out => exact .keep hself
    | peekBack out => exact .keep hself
    | peekAt index out => exact .keep hself
    | forEach visit => exact .keep hself
  clear := by
    rintro s nodes ⟨free, h⟩
    obtain ⟨t, free', heq, -⟩ := clear_cases h
    exact ⟨t, heq, fun others heap hholds => clear_freed h hholds⟩

end SList

/-! ## The doubly linked list -/

namespace DList

variable {cfg : DListConfig V} {s t : DList V}

/-- The nodes are of the heap, in a build with the heap, unless they are of a pool. -/
def ofHeap (cfg : DListConfig V) : Bool := !cfg.source.fixedPool

/-- The events of `make_node`: a failed copy frees the node. -/
def makeNodeBlocks (cfg : DListConfig V) (s : DList V) (value : V) : List (Event (Block NodeArea)) :=
  match acquireNode cfg s with
  | (.error _, _) => []
  | (.ok slot, s) =>
    granted (ofHeap cfg) slot ++
      if (s.cells.copyConstruct cfg.policy slot value).1 ≠ .ok then freed (ofHeap cfg) slot else []

/-- The events of `insert_at`. -/
def insertAtBlocks (cfg : DListConfig V) (s : DList V) (index : ℕ) (value : Option V) :
    List (Event (Block NodeArea)) :=
  match value with
  | none => []
  | some value =>
    if s.size < index then []
    else if index = 0 then makeNodeBlocks cfg s value
    else if index = s.size then makeNodeBlocks cfg s value
    else
      match nodeAt s index with
      | none => []
      | some _ => makeNodeBlocks cfg s value

/-- The events of `pop_node`. -/
def popNodeBlocks (cfg : DListConfig V) (s : DList V) (slot : ℕ) (out : Option V) :
    List (Event (Block NodeArea)) :=
  taken (ofHeap cfg) slot (takeValue cfg s slot out).1.1

/-- The events of popping a node that was looked for. -/
def popFoundBlocks (cfg : DListConfig V) (s : DList V) (node : Option ℕ) (out : Option V) :
    List (Event (Block NodeArea)) :=
  match node with
  | none => []
  | some slot => popNodeBlocks cfg s slot out

/-- The events of `pop_front`. -/
def popFrontBlocks (cfg : DListConfig V) (s : DList V) (out : Option V) :
    List (Event (Block NodeArea)) :=
  if s.size = 0 then [] else popFoundBlocks cfg s s.head out

/-- The events of `pop_back`. -/
def popBackBlocks (cfg : DListConfig V) (s : DList V) (out : Option V) :
    List (Event (Block NodeArea)) :=
  if s.size = 0 then [] else popFoundBlocks cfg s s.tail out

/-- The events of `remove_at`. -/
def removeAtBlocks (cfg : DListConfig V) (s : DList V) (index : ℕ) (out : Option V) :
    List (Event (Block NodeArea)) :=
  if s.size ≤ index then []
  else if index = 0 then popFrontBlocks cfg s out
  else if index = s.size - 1 then popBackBlocks cfg s out
  else popFoundBlocks cfg s (nodeAt s index) out

/-- The events of `remove_first`. -/
def removeFirstBlocks (cfg : DListConfig V) (s : DList V) (pred : V → Bool) (out : Option V) :
    List (Event (Block NodeArea)) :=
  match findLoop pred s.cells.contents s.next (rounds cfg s) 0 s.head with
  | some (some index) => removeAtBlocks cfg s index out
  | _ => []

/-- The nodes that the loop of `clear` frees. -/
def clearLoopNodes (cfg : DListConfig V) : ℕ → DList V → List ℕ
  | rounds, s =>
    match s.head with
    | none => []
    | some current =>
      match rounds with
      | 0 => []
      | rounds + 1 =>
        let s := unlinkNode s current
        let s := destroyNodeValue cfg s current
        current :: clearLoopNodes cfg rounds (releaseNode cfg s current)

/-- The events of `clear`. -/
def clearBlocks (cfg : DListConfig V) (s : DList V) : List (Event (Block NodeArea)) :=
  (clearLoopNodes cfg (rounds cfg s) s).flatMap (freed (ofHeap cfg))

/-- The events of a call. -/
def callBlocks (cfg : DListConfig V) (s : DList V) : Call V → List (Event (Block NodeArea))
  | .pushFront value => makeNodeBlocks cfg s value
  | .pushBack value => makeNodeBlocks cfg s value
  | .insertAt index value => insertAtBlocks cfg s index value
  | .popFront out => popFrontBlocks cfg s out
  | .popBack out => popBackBlocks cfg s out
  | .removeAt index out => removeAtBlocks cfg s index out
  | .removeFirst pred out => removeFirstBlocks cfg s pred out
  | .clear => clearBlocks cfg s
  | .peekFront _ => []
  | .peekBack _ => []
  | .peekAt _ _ => []
  | .forEach _ => []
  | .forEachReverse _ => []

/-- The list with what it does to the heap. -/
def nodeCore (cfg : DListConfig V) : NodeCore (DList V) (Call V) (Option (Answer V)) where
  call := DList.call cfg
  blocks := callBlocks cfg
  clear := clear cfg
  clearBlocks := clearBlocks cfg

/-- **`make_node`** that fails has freed what it obtained. -/
theorem makeNodeBlocks_failed {st : Status} (h : Inv cfg s nodes free) (value : V)
    (hfailed : makeNode cfg s value = (.error st, t)) {shape : List ℕ → Prop}
    (hshape : shape nodes) : Step (ofHeap cfg) nodes shape (makeNodeBlocks cfg s value) := by
  have hapart := h.shape.apart
  rw [List.append_nil] at hapart
  unfold makeNode acquireNode at hfailed
  unfold makeNodeBlocks acquireNode
  rcases hapart.acquire with ⟨st', pool, heq, -⟩ | ⟨slot, pool, free', heq, hnew, -⟩
  · rw [heq]
    exact .keep hshape
  · rw [heq] at hfailed ⊢
    dsimp only at hfailed ⊢
    split at hfailed
    next hok =>
      rw [if_pos hok]
      exact .giveBack hshape hnew
    next => cases congrArg Prod.fst hfailed

/-- **`make_node`** that returns a node has obtained it. -/
theorem makeNodeBlocks_ok (value : V) (hok : makeNode cfg s value = (.ok slot, t)) :
    makeNodeBlocks cfg s value = granted (ofHeap cfg) slot := by
  unfold makeNode at hok
  unfold makeNodeBlocks
  generalize acquireNode cfg s = r at hok ⊢
  obtain ⟨result, u⟩ := r
  cases result with
  | error st => cases congrArg Prod.fst hok
  | ok slot' =>
    dsimp only at hok ⊢
    by_cases hcopy : (u.cells.copyConstruct cfg.policy slot' value).1 ≠ .ok
    · rw [if_pos hcopy] at hok
      cases congrArg Prod.fst hok
    · rw [if_neg hcopy] at hok ⊢
      rw [List.append_nil, Except.ok.inj (congrArg Prod.fst hok)]

/-- **An insertion** obtains the node that it links. -/
theorem insertBetween_step (h : Inv cfg s (as ++ bs) free) (value : V) :
    Step (ofHeap cfg) (as ++ bs)
      (view cfg (insertBetween cfg s value as.getLast? bs.head?).2).shape
      (makeNodeBlocks cfg s value) := by
  unfold insertBetween insertLinked
  rcases makeNode_cases h value with
    ⟨st, t, heq, -, hkept, -⟩ | ⟨slot, t, free', heq, hshape, hsize, -⟩
  · rw [heq]
    exact makeNodeBlocks_failed h value heq hkept.shape
  · rw [makeNodeBlocks_ok value heq, heq]
    refine .obtain ⟨free', hshape.splice.congr rfl rfl (fun _ _ => rfl) rfl, ?_⟩ hshape.spare_notMem
    show t.size + 1 = _
    rw [hsize, h.size_eq]
    simp only [List.length_append, List.length_cons]
    omega

/-- **`insert_at`** any index. -/
theorem insertAt_step (h : Inv cfg s nodes free) (index : ℕ) (value : Option V) :
    Step (ofHeap cfg) nodes (view cfg (insertAt cfg s index value).2).shape
      (insertAtBlocks cfg s index value) := by
  cases value with
  | none => exact .keep ⟨free, h⟩
  | some value =>
    have hsize := h.size_eq
    by_cases hindex : s.size < index
    · rw [insertAt, insertAtBlocks, if_pos hindex, if_pos hindex]
      exact .keep ⟨free, h⟩
    have hle : index ≤ nodes.length := by omega
    have hevents : insertAtBlocks cfg s index (some value) = makeNodeBlocks cfg s value := by
      rw [insertAtBlocks, if_neg hindex]
      by_cases hfront : index = 0
      · rw [if_pos hfront]
      by_cases hback : index = s.size
      · rw [if_neg hfront, if_pos hback]
      · rw [if_neg hfront, if_neg hback, nodeAt_eq h, List.getElem?_eq_getElem (by omega)]
    rw [insertAt_eq h value hle, hevents]
    rw [← List.take_append_drop index nodes] at h
    have hstep := insertBetween_step h value
    rwa [List.take_append_drop] at hstep

/-- The events of `pop_node` are told by its status. -/
theorem popNodeBlocks_eq (cfg : DListConfig V) (s : DList V) (slot : ℕ) (out : Option V) :
    popNodeBlocks cfg s slot out = taken (ofHeap cfg) slot (popNode cfg s slot out).1.1 := by
  unfold popNodeBlocks popNode
  dsimp only
  by_cases hok : (takeValue cfg s slot out).1.1 ≠ .ok
  · rw [if_pos hok]
  · rw [if_neg hok, not_not.mp hok]

/-- **`pop_node`** frees the node. -/
theorem popNode_step (h : Inv cfg s (as ++ slot :: bs) free) (out : Option V) :
    Step (ofHeap cfg) (as ++ slot :: bs) (view cfg (popNode cfg s slot out).2).shape
      (popNodeBlocks cfg s slot out) := by
  rw [popNodeBlocks_eq]
  exact .takes (popNode_cases h out) h.shape.nodup

/-- **Popping a node** that was looked for. -/
theorem popFound_step (h : Inv cfg s nodes free) (index : ℕ) (missing : Status) (out : Option V) :
    Step (ofHeap cfg) nodes (view cfg (popFound cfg s nodes[index]? missing out).2).shape
      (popFoundBlocks cfg s nodes[index]? out) := by
  by_cases hindex : index < nodes.length
  · obtain ⟨as, bs, hsplit, -⟩ := exists_split_getElem nodes hindex
    rw [List.getElem?_eq_getElem hindex]
    rw [hsplit] at h
    have hstep := popNode_step h out
    rw [← hsplit] at hstep
    exact hstep
  · rw [List.getElem?_eq_none (by omega)]
    exact .keep ⟨free, h⟩

theorem popFrontBlocks_eq (h : Inv cfg s nodes free) (out : Option V) :
    popFrontBlocks cfg s out = popFoundBlocks cfg s nodes[0]? out := by
  rw [popFrontBlocks, h.shape.chain.head_eq, h.size_eq]
  cases nodes <;> rfl

theorem popBackBlocks_eq (h : Inv cfg s nodes free) (out : Option V) :
    popBackBlocks cfg s out = popFoundBlocks cfg s nodes[nodes.length - 1]? out := by
  rw [popBackBlocks, h.shape.chain.tail_eq, h.size_eq, List.getLast?_eq_getElem?]
  cases nodes <;> rfl

theorem removeAtBlocks_eq (h : Inv cfg s nodes free) (index : ℕ) (out : Option V) :
    removeAtBlocks cfg s index out = popFoundBlocks cfg s nodes[index]? out := by
  have hsize := h.size_eq
  unfold removeAtBlocks
  by_cases hout : s.size ≤ index
  · rw [if_pos hout, List.getElem?_eq_none (by omega)]
    rfl
  rw [if_neg hout]
  by_cases hfront : index = 0
  · rw [if_pos hfront, popFrontBlocks_eq h, hfront]
  by_cases hback : index = s.size - 1
  · rw [if_neg hfront, if_pos hback, popBackBlocks_eq h, hback, hsize]
  · rw [if_neg hfront, if_neg hback, nodeAt_eq h]

/-- **`remove_at`** of any index. -/
theorem removeAt_step (h : Inv cfg s nodes free) (index : ℕ) (out : Option V) :
    Step (ofHeap cfg) nodes (view cfg (answerRemoval s (removeAt cfg s index out)).2).shape
      (removeAtBlocks cfg s index out) := by
  rw [removeAt_eq h, removeAtBlocks_eq h]
  exact popFound_step h index .invalid out

/-- **The loop of `clear`** frees all nodes. -/
theorem clearLoopNodes_eq (h : Shape cfg s nodes [] free) {rounds : ℕ}
    (hrounds : nodes.length ≤ rounds) : clearLoopNodes cfg rounds s = nodes := by
  induction nodes generalizing s free rounds with
  | nil =>
    have hhead : s.head = none := h.chain.head_eq
    rw [clearLoopNodes, hhead]
  | cons i is ih =>
    have hhead : s.head = some i := h.chain.head_eq
    obtain ⟨hunlinked, -⟩ := Shape.unlinkNode (show Shape cfg s ([] ++ i :: is) [] free from h)
    obtain ⟨free', hreleased⟩ := (hunlinked.destroyNodeValue i).release
    cases rounds with
    | zero => cases hrounds
    | succ rounds =>
      rw [clearLoopNodes, hhead]
      exact congrArg (i :: ·) (ih hreleased (Nat.le_of_succ_le_succ hrounds))

/-- **`clear`** frees all nodes. -/
theorem clear_freed (h : Inv cfg s nodes free) {others : List (Block NodeArea)}
    {heap : Ledger (Block NodeArea)} (hholds : HoldsNodes (ofHeap cfg) others nodes heap) :
    HoldsNodes (ofHeap cfg) others [] (heap.replay (clearBlocks cfg s)) := by
  have hnodup := h.shape.nodup
  rw [← List.append_nil nodes] at hholds hnodup
  rw [clearBlocks, clearLoopNodes_eq h.shape h.rounds_le]
  exact hholds.freedAll hnodup

/-- **What every call obtains and frees** fits what it does to the nodes. -/
theorem nodeCore_sound (cfg : DListConfig V) :
    (nodeCore cfg).Sound (ofHeap cfg) fun s => (view cfg s).shape where
  call := by
    rintro s nodes c ⟨free, h⟩
    have hself : (view cfg s).shape nodes := ⟨free, h⟩
    show Step (ofHeap cfg) nodes (view cfg (DList.call cfg s c).2).shape (callBlocks cfg s c)
    cases c with
    | pushFront value =>
      show Step _ _ (view cfg (insertFront cfg s value).2).shape _
      rw [insertFront_eq h]
      exact insertBetween_step (show Inv cfg s ([] ++ nodes) free from h) value
    | pushBack value =>
      show Step _ _ (view cfg (insertBack cfg s value).2).shape _
      have hstep := insertBetween_step (show Inv cfg s (nodes ++ []) free by rwa [List.append_nil])
        value
      rw [List.append_nil] at hstep
      rw [insertBack_eq h]
      exact hstep
    | insertAt index value => exact insertAt_step h index value
    | popFront out =>
      show Step _ _ (view cfg (answerRemoval s (popFront cfg s out)).2).shape (popFrontBlocks cfg s out)
      rw [popFront_eq h, popFrontBlocks_eq h, List.head?_eq_getElem?]
      exact popFound_step h 0 .empty out
    | popBack out =>
      show Step _ _ (view cfg (answerRemoval s (popBack cfg s out)).2).shape (popBackBlocks cfg s out)
      rw [popBack_eq h, popBackBlocks_eq h, List.getLast?_eq_getElem?]
      exact popFound_step h _ .empty out
    | removeAt index out => exact removeAt_step h index out
    | removeFirst pred out =>
      have hsearch : findLoop pred s.cells.contents s.next (rounds cfg s) 0 s.head = _ :=
        findLoop_zero pred h.shape.chain.forward h.rounds_le
      show Step _ _ (view cfg (answerRemoval s (removeFirst cfg s pred out)).2).shape
        (removeFirstBlocks cfg s pred out)
      rw [removeFirst, removeFirstBlocks, hsearch]
      cases (nodes.map s.cells.contents).findIdx? pred with
      | none => exact .keep hself
      | some index => exact removeAt_step h index out
    | clear =>
      obtain ⟨t, free', heq, hinv, -⟩ := clear_cases h
      refine ⟨[], ⟨free', ?_⟩, fun others heap hholds => clear_freed h hholds⟩
      simp only [DList.call, heq]
      exact hinv
    | peekFront out => exact .keep hself
    | peekBack out => exact .keep hself
    | peekAt index out => exact .keep hself
    | forEach visit => exact .keep hself
    | forEachReverse visit => exact .keep hself
  clear := by
    rintro s nodes ⟨free, h⟩
    obtain ⟨t, free', heq, -⟩ := clear_cases h
    exact ⟨t, heq, fun others heap hholds => clear_freed h hholds⟩

end DList

end Memkit
