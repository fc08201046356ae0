import Memkit.Sequences.DListOperations
import Memkit.Sequences.NodeSequence

/-! # The doubly linked list is a sequence

With copies that do not fail, `dlist_core` over a pool answers as the reference list of the
elements of its nodes.

* **`represents_call`** — the step of the simulation.
* **`Sound`** — what holds of the links after any calls.
* **`refines_sequence`** — the refinement. -/

namespace Memkit

open LinkedChain NodeView

namespace DList

variable {V : Type*} {cfg : DListConfig V} {s t : DList V} {nodes free as bs : List ℕ} {slot : ℕ}
  {xs : List V}

/-- **A removal at an index** is answered as on the reference. -/
theorem Inv.answerRemoval (h : Inv cfg s nodes free) (hpolicy : cfg.policy.NonFailing)
    (index : ℕ) (missing : Status) (out : Option V) {r : Option ((Status × Option V) × DList V)}
    (hr : r = some (popFound cfg s nodes[index]? missing out)) :
    let q := Sequence.answerRemoval (Sequence.take (nodes.map s.cells.contents) index missing out)
    (Memkit.answerRemoval s r).1 = some q.1 ∧
      (view cfg (Memkit.answerRemoval s r).2).Represents q.2 := by
  subst hr
  have htake : (popFound cfg s nodes[index]? missing out).1 =
      (Sequence.take (nodes.map s.cells.contents) index missing out).1 ∧
      (view cfg (popFound cfg s nodes[index]? missing out).2).Represents
        (Sequence.take (nodes.map s.cells.contents) index missing out).2 := by
    refine represents_take (v := view cfg s) cfg.needsDestroy ⟨free, h⟩ hpolicy
      ?_ ?_
    · intro hnone
      rw [hnone]
      exact ⟨rfl, rfl⟩
    · intro as bs slot hsplit hindex
      subst hsplit hindex
      rw [List.getElem?_append_right le_rfl, Nat.sub_self, List.getElem?_cons_zero]
      exact popNode_cases h out
  exact ⟨congrArg (some ∘ Answer.ofOut) htake.1, htake.2⟩

/-- **Every call** on the list is answered as on the reference. -/
theorem represents_call (h : (view cfg s).Represents xs) (hpolicy : cfg.policy.NonFailing)
    (hpool : cfg.source.fixedPool = true) (c : Call V) :
    (DList.call cfg s c).1 = some (Sequence.call cfg.source.capacity xs c).1 ∧
      (view cfg (DList.call cfg s c).2).Represents (Sequence.call cfg.source.capacity xs c).2 := by
  -- a call that changes nothing keeps the representation it had
  have hself := h
  obtain ⟨nodes, ⟨free, hinv⟩, hxs⟩ := h
  obtain rfl : xs = nodes.map s.cells.contents := hxs
  have hlength : (nodes.map s.cells.contents).length = nodes.length := List.length_map _
  cases c with
  | pushFront value =>
    -- an insertion between a part before and a part after: the part before is empty here
    obtain ⟨hst, hrep⟩ := (insertFront_cases hinv value).represents hpolicy hpool
    exact ⟨congrArg (some ∘ Answer.status) hst, hrep⟩
  | pushBack value =>
    obtain ⟨hst, hrep⟩ := (insertBack_cases hinv value).represents hpolicy hpool
    -- here the part after is empty
    rw [List.append_nil, ← hlength] at hst hrep
    exact ⟨congrArg (some ∘ Answer.status) hst, hrep⟩
  | insertAt index value =>
    cases value with
    | none => exact ⟨rfl, hself⟩
    | some value =>
      simp only [DList.call, Sequence.call, Sequence.insertAt, hlength]
      by_cases hindex : nodes.length < index
      · rw [insertAt, if_pos (hinv.size_eq.symm ▸ hindex), if_pos hindex]
        exact ⟨rfl, hself⟩
      · obtain ⟨hst, hrep⟩ := (insertAt_cases hinv value (not_lt.mp hindex)).represents hpolicy hpool
        -- the walk splits the nodes at the index
        rw [List.take_append_drop, List.length_take, Nat.min_eq_left (not_lt.mp hindex)] at hst hrep
        rw [if_neg hindex]
        exact ⟨congrArg (some ∘ Answer.status) hst, hrep⟩
  | popFront out =>
    -- the removals differ in the place they look at and in the status they miss with
    apply hinv.answerRemoval hpolicy 0 .empty out
    rw [popFront_eq hinv, List.head?_eq_getElem?]
  | popBack out =>
    have hlast : nodes.getLast? = nodes[(nodes.map s.cells.contents).length - 1]? := by
      rw [hlength, List.getLast?_eq_getElem?]
    apply hinv.answerRemoval hpolicy _ .empty out
    rw [popBack_eq hinv, hlast]
  | removeAt index out => exact hinv.answerRemoval hpolicy index .invalid out (removeAt_eq hinv index out)
  | removeFirst pred out =>
    -- the search walks the chain by its links, the reference looks through the list
    have hsearch : findLoop pred s.cells.contents s.next (rounds cfg s) 0 s.head = _ :=
      findLoop_zero pred hinv.shape.chain.forward hinv.rounds_le
    simp only [DList.call, Sequence.call, removeFirst, Sequence.removeFirst, hsearch]
    cases hfind : (nodes.map s.cells.contents).findIdx? pred with
    | none => exact ⟨rfl, hself⟩
    | some index =>
      exact hinv.answerRemoval hpolicy index .invalid out (removeAt_eq hinv index out)
  | peekFront out =>
    refine ⟨?_, hself⟩
    have hhead := hinv.shape.chain.head_eq
    show (peekEnd s.size s.cells.contents s.head out).map Answer.ofOut = _
    rw [peekEnd_eq (by rw [hinv.size_eq, hhead]; simp), hhead, ← List.head?_map]
    rfl
  | peekBack out =>
    refine ⟨?_, hself⟩
    have htail := hinv.shape.chain.tail_eq
    show (peekEnd s.size s.cells.contents s.tail out).map Answer.ofOut = _
    rw [peekEnd_eq (by rw [hinv.size_eq, htail]; simp), htail, ← List.getLast?_map]
    rfl
  | peekAt index out =>
    refine ⟨?_, hself⟩
    show some (Answer.ofOut (peekAt s index out)) =
      some (Answer.ofOut (Deque.peek (nodes.map s.cells.contents)[index]? .invalid out))
    unfold peekAt
    rw [List.getElem?_map, nodeAt_eq hinv]
    cases out with
    | none => rfl
    | some out => cases nodes[index]? <;> rfl
  | clear =>
    obtain ⟨t, free', heq, hinv', -⟩ := clear_cases hinv
    simp only [DList.call, heq]
    exact ⟨rfl, [], ⟨free', hinv'⟩, rfl⟩
  | forEach visit =>
    refine ⟨?_, hself⟩
    show (forEach cfg s visit).map Answer.ofVisits = _
    rw [forEach, forEachLoop_eq visit hinv.shape.chain.forward hinv.rounds_le]
    rfl
  | forEachReverse visit =>
    refine ⟨?_, hself⟩
    show (forEachReverse cfg s visit).map Answer.ofVisits = _
    rw [forEachReverse, hinv.size_eq]
    -- the walk starts at the index `size - 1`, so the empty list is answered before it
    by_cases hempty : nodes.length = 0
    · obtain rfl := List.length_eq_zero_iff.mp hempty
      rfl
    · have hne : nodes ≠ [] := fun hnil => hempty (congrArg List.length hnil)
      rw [if_neg hempty,
        forEachReverseLoop_eq visit hinv.shape.chain.backward hinv.rounds_le hne]
      rfl

/-! ## Runs -/

/-- The nodes from the head. -/
def nodesOf (cfg : DListConfig V) (s : DList V) : List ℕ := trail s.next (rounds cfg s) s.head

/-- The free nodes. -/
def freeNodes (cfg : DListConfig V) (s : DList V) : List ℕ :=
  trail s.next (rounds cfg s) s.pool.freeList

/-- The elements from the head. -/
def values (cfg : DListConfig V) (s : DList V) : List V :=
  (nodesOf cfg s).map s.cells.contents

theorem Inv.nodesOf_eq (h : Inv cfg s nodes free) : nodesOf cfg s = nodes :=
  h.shape.chain.forward.trail_eq h.rounds_le

theorem values_eq_of_represents (h : (view cfg s).Represents xs) : values cfg s = xs := by
  obtain ⟨nodes, ⟨free, hinv⟩, rfl⟩ := h
  rw [values, hinv.nodesOf_eq]
  rfl

/-- What holds of a list that stands for `xs`: its elements are `xs`, `next` and `prev` are inverse
to each other with `head_` and `tail_` at the ends, its nodes and the free ones are those of the
pool, and a call that is not ok changes no element. -/
structure Sound (cfg : DListConfig V) (s : DList V) (xs : List V) : Prop where
  values_eq : values cfg s = xs
  inverse : ∀ i ∈ nodesOf cfg s, ∀ j ∈ nodesOf cfg s, s.next i = some j ↔ s.prev j = some i
  head_eq : s.head = (nodesOf cfg s).head?
  tail_eq : s.tail = (nodesOf cfg s).getLast?
  prev_head : ∀ i, s.head = some i → s.prev i = none
  next_tail : ∀ i, s.tail = some i → s.next i = none
  partition : (nodesOf cfg s ++ freeNodes cfg s).Perm (List.range cfg.source.capacity)
  unchanged : ∀ c st, ((DList.call cfg s c).1.bind Answer.status?) = some st → st ≠ .ok →
    values cfg (DList.call cfg s c).2 = values cfg s

theorem sound_of_represents (h : (view cfg s).Represents xs) (hpolicy : cfg.policy.NonFailing)
    (hpool : cfg.source.fixedPool = true) : Sound cfg s xs := by
  have hself := h
  obtain ⟨nodes, ⟨free, hinv⟩, hxs⟩ := h
  have hchain := hinv.shape.chain
  have hperm := hinv.shape.apart.of_pool hpool
  rw [List.append_nil] at hperm
  have hnodes := hinv.nodesOf_eq
  have hfree : freeNodes cfg s = free := by
    refine hinv.shape.apart.free_walk.trail_eq ?_
    have hlength := hperm.length_eq
    rw [List.length_append, List.length_range] at hlength
    unfold rounds
    omega
  refine ⟨values_eq_of_represents hself, ?_, ?_, ?_, ?_, ?_, ?_, ?_⟩
  · rw [hnodes]
    exact fun i hi j hj => hchain.next_eq_some_iff hi hj
  · rw [hnodes]
    exact hchain.head_eq
  · rw [hnodes]
    exact hchain.tail_eq
  · intro i hi
    rw [hchain.head_eq] at hi
    obtain ⟨is, rfl⟩ := List.head?_eq_some_iff.mp hi
    exact (show Doubly s.next s.prev s.head s.tail ([] ++ i :: is) from hchain).prev_eq
  · intro i hi
    rw [hchain.tail_eq] at hi
    obtain ⟨is, rfl⟩ := List.getLast?_eq_some_iff.mp hi
    exact hchain.next_eq
  · rw [hnodes, hfree]
    exact hperm
  · intro c st hst hne
    obtain ⟨hanswer, hrep⟩ := represents_call hself hpolicy hpool c
    rw [hanswer] at hst
    rw [values_eq_of_represents hrep, values_eq_of_represents hself, Sequence.call_eq_of_not_ok hst hne]

theorem represents_init (cfg : DListConfig V) (links : ℕ → Option ℕ) (memory : ℕ → V) :
    (view cfg (init cfg links memory)).Represents [] :=
  ⟨[], inv_init cfg links memory, rfl⟩

/-- **The list is a sequence**: over any calls on a list over a pool it answers as the reference
list, and after them its links are sound. -/
theorem refines_sequence (cfg : DListConfig V) (hpolicy : cfg.policy.NonFailing)
    (hpool : cfg.source.fixedPool = true) (links : ℕ → Option ℕ) (memory : ℕ → V)
    (calls : List (Call V)) :
    Mealy.outputs (DList.call cfg) (init cfg links memory) calls =
        (Mealy.outputs (Sequence.call cfg.source.capacity) [] calls).map some ∧
      Sound cfg (Mealy.final (DList.call cfg) (init cfg links memory) calls)
        (Mealy.final (Sequence.call cfg.source.capacity) [] calls) := by
  obtain ⟨houtputs, hrep⟩ := Mealy.simulation_map some
    (fun s xs => (view cfg s).Represents xs)
    (fun s xs c hrep => represents_call hrep hpolicy hpool c) (represents_init cfg links memory) calls
  exact ⟨houtputs, sound_of_represents hrep hpolicy hpool⟩

/-- A list over a pool of three nodes. -/
def tripleList : DListConfig ℕ where
  policy := .bytewise ℕ
  needsDestroy := false
  source := ⟨true, 3, fun _ => .unsupported⟩

/-- Insertions at every kind of place, removals and both traversals. -/
def tripleCalls : List (Call ℕ) :=
  [.pushBack 2, .pushFront 0, .insertAt 1 (some 1), .pushBack 3, .forEach fun _ => .ok,
    .removeAt 1 (some 9), .popBack none, .insertAt 1 (some 4), .forEachReverse fun _ => .ok]

/-- The list is a sequence in such a run. -/
theorem refines_sequence_tripleCalls :
    Mealy.outputs (DList.call tripleList) (init tripleList (fun _ => some 0) fun _ => 0)
        tripleCalls =
        [.status .ok, .status .ok, .status .ok, .status .full,
          .visits .ok [(0, 0), (1, 1), (2, 2)], .value .ok (some 1), .value .ok none, .status .ok,
          .visits .ok [(4, 1), (0, 0)]].map some ∧
      Mealy.outputs (DList.call tripleList) (init tripleList (fun _ => some 0) fun _ => 0)
        tripleCalls = (Mealy.outputs (Sequence.call 3) [] tripleCalls).map some :=
  ⟨by decide +kernel, (refines_sequence tripleList (ElementPolicy.nonFailing_bytewise ℕ) rfl
    (fun _ => some 0) (fun _ => 0) tripleCalls).1⟩

end DList

end Memkit
