import Memkit.Sequences.DListRefinement
import Memkit.Sequences.SListOperations

/-! # The singly linked list is the same sequence

With copies that do not fail, `list_core` over a pool answers as the reference list of the elements
of its nodes, and so as `dlist_core` over a pool of the same size.

* **`represents_call`** — the step of the simulation.
* **`refines_listReference`** — the refinement.
* **`agrees_with_dlist`** — the two lists answer alike and hold the same elements. -/

namespace Memkit

open LinkedChain NodeView

namespace SList

variable {V : Type*} {cfg : SListConfig V} {s t : SList V} {nodes free : List ℕ} {xs : List V}

/-- The same call on the doubly linked list. -/
def Call.twin : Call V → DList.Call V
  | .pushFront value => .pushFront value
  | .pushBack value => .pushBack value
  | .insertAt index value => .insertAt index value
  | .popFront out => .popFront out
  | .popBack out => .popBack out
  | .removeAt index out => .removeAt index out
  | .removeFirst pred out => .removeFirst pred out
  | .peekFront out => .peekFront out
  | .peekBack out => .peekBack out
  | .peekAt index out => .peekAt index out
  | .clear => .clear
  | .forEach visit => .forEach visit

/-- **A removal at an index** is answered as on the reference. -/
theorem Inv.answerRemoval (h : Inv cfg s nodes free) (hpolicy : cfg.policy.NonFailing)
    {index : ℕ} {missing : Status} {out : Option V} {r : (Status × Option V) × SList V}
    (hr : (nodes[index]? = none ∧ r = ((missing, out), s)) ∨ TakesAt cfg s nodes index out r) :
    let q := Sequence.answerRemoval (Sequence.take (nodes.map s.cells.contents) index missing out)
    (Memkit.answerRemoval s (some r)).1 = some q.1 ∧
      (view cfg (Memkit.answerRemoval s (some r)).2).Represents q.2 := by
  have htake : r.1 = (Sequence.take (nodes.map s.cells.contents) index missing out).1 ∧
      (view cfg r.2).Represents
        (Sequence.take (nodes.map s.cells.contents) index missing out).2 := by
    refine represents_take (v := view cfg s) cfg.needsDestroy ⟨free, h⟩ hpolicy ?_ ?_
    · intro hnone
      rcases hr with ⟨-, rfl⟩ | ⟨as, bs, slot, rfl, rfl, -⟩
      · exact ⟨rfl, rfl⟩
      · rw [List.getElem?_append_right le_rfl, Nat.sub_self, List.getElem?_cons_zero] at hnone
        cases hnone
    · intro as bs slot hsplit hindex
      rcases hr with ⟨hnone, -⟩ | ⟨as', bs', slot', hsplit', hindex', htakes⟩
      · rw [hsplit, ← hindex, List.getElem?_append_right le_rfl, Nat.sub_self,
          List.getElem?_cons_zero] at hnone
        cases hnone
      · obtain ⟨rfl, hrest⟩ :=
          List.append_inj (hsplit.symm.trans hsplit') (hindex.trans hindex'.symm)
        obtain ⟨rfl, rfl⟩ := List.cons.inj hrest
        exact htakes
  exact ⟨congrArg (some ∘ Answer.ofOut) htake.1, htake.2⟩

/-- **`remove_at`** is answered as on the reference. -/
theorem Inv.removeAt (h : Inv cfg s nodes free) (hpolicy : cfg.policy.NonFailing) (index : ℕ)
    (out : Option V) :
    let q := Sequence.answerRemoval (Sequence.take (nodes.map s.cells.contents) index .invalid out)
    (Memkit.answerRemoval s (SList.removeAt cfg s index out)).1 = some q.1 ∧
      (view cfg (Memkit.answerRemoval s (SList.removeAt cfg s index out)).2).Represents q.2 := by
  by_cases hindex : index < nodes.length
  · obtain ⟨r, heq, htakes⟩ := removeAt_cases h hindex out
    rw [heq]
    exact h.answerRemoval hpolicy (.inr htakes)
  · have hsize := h.size_eq
    have heq : SList.removeAt cfg s index out = some ((.invalid, out), s) := if_pos (by omega)
    rw [heq]
    exact h.answerRemoval hpolicy (.inl ⟨List.getElem?_eq_none (by omega), rfl⟩)

/-- The node that `peek_at` walks to. -/
theorem peekAt_eq (h : Inv cfg s nodes free) (index : ℕ) (out : Option V) :
    peekAt s index out =
      some (Deque.peek (nodes.map s.cells.contents)[index]? .invalid out) := by
  have hsize := h.size_eq
  unfold peekAt
  rw [List.getElem?_map]
  cases out with
  | none => rfl
  | some out =>
    by_cases hindex : index < nodes.length
    · obtain ⟨as, bs, hsplit, hlength⟩ := exists_split_getElem nodes hindex
      have hchain : Seg s.next s.head nodes none := h.shape.chain.forward
      rw [hsplit] at hchain
      have hwalk := hchain.iterate_eq
      rw [hlength] at hwalk
      simp only [if_neg (show ¬ s.size ≤ index by omega), hwalk, List.head?_cons, Option.map_some,
        List.getElem?_eq_getElem hindex]
      rfl
    · simp only [if_pos (show s.size ≤ index by omega),
        List.getElem?_eq_none (show nodes.length ≤ index by omega), Option.map_none]
      rfl

/-- **Every call** on the list is answered as on the reference. -/
theorem represents_call (h : (view cfg s).Represents xs) (hpolicy : cfg.policy.NonFailing)
    (hpool : cfg.source.fixedPool = true) (c : Call V) :
    (SList.call cfg s c).1 = some (Sequence.call cfg.source.capacity xs c.twin).1 ∧
      (view cfg (SList.call cfg s c).2).Represents
        (Sequence.call cfg.source.capacity xs c.twin).2 := by
  -- a call that changes nothing keeps the representation it had
  have hself := h
  obtain ⟨nodes, ⟨free, hinv⟩, hxs⟩ := h
  obtain rfl : xs = nodes.map s.cells.contents := hxs
  have hlength : (nodes.map s.cells.contents).length = nodes.length := List.length_map _
  cases c with
  | pushFront value =>
    -- an insertion between a part before and a part after: the part before is empty here
    obtain ⟨hst, hrep⟩ := (insertFront_cases hinv value).represents hpolicy hpool
    exact ⟨congrArg (some ∘ Answer.status) hst, hrep⟩
  | pushBack value =>
    obtain ⟨hst, hrep⟩ := (insertBack_cases hinv value).represents hpolicy hpool
    -- here the part after is empty
    rw [List.append_nil, ← hlength] at hst hrep
    exact ⟨congrArg (some ∘ Answer.status) hst, hrep⟩
  | insertAt index value =>
    cases value with
    | none => exact ⟨rfl, hself⟩
    | some value =>
      simp only [SList.call, Call.twin, Sequence.call, Sequence.insertAt, hlength]
      by_cases hindex : nodes.length < index
      · rw [insertAt, if_pos (hinv.size_eq.symm ▸ hindex), if_pos hindex]
        exact ⟨rfl, hself⟩
      · obtain ⟨hst, hrep⟩ := (insertAt_cases hinv value (not_lt.mp hindex)).represents hpolicy hpool
        -- the walk splits the nodes at the index
        rw [List.take_append_drop, List.length_take, Nat.min_eq_left (not_lt.mp hindex)] at hst hrep
        rw [if_neg hindex]
        exact ⟨congrArg (some ∘ Answer.status) hst, hrep⟩
  | popFront out =>
    show (Memkit.answerRemoval s (popFront cfg s out)).1 = _ ∧ _
    rcases popFront_cases hinv out with ⟨rfl, heq⟩ | ⟨r, heq, htakes⟩
    · simp only [SList.call, heq]
      exact hinv.answerRemoval hpolicy (.inl ⟨rfl, rfl⟩)
    · simp only [SList.call, heq]
      exact hinv.answerRemoval hpolicy (.inr htakes)
  | popBack out =>
    -- without links back, the walk also hands back the node before the last one
    simp only [SList.call, Call.twin, Sequence.call, hlength]
    apply hinv.answerRemoval hpolicy
    rcases popBack_cases hinv out with ⟨rfl, heq⟩ | htakes
    · exact .inl ⟨rfl, heq⟩
    · exact .inr htakes
  | removeAt index out => exact hinv.removeAt hpolicy index out
  | removeFirst pred out =>
    -- the search walks the chain by its links, the reference looks through the list
    have hsearch : findLoop pred s.cells.contents s.next (rounds cfg s) 0 s.head = _ :=
      findLoop_zero pred hinv.shape.chain.forward hinv.rounds_le
    simp only [SList.call, Call.twin, Sequence.call, removeFirst, Sequence.removeFirst, hsearch]
    cases hfind : (nodes.map s.cells.contents).findIdx? pred with
    | none => exact ⟨rfl, hself⟩
    | some index => exact hinv.removeAt hpolicy index out
  | peekFront out =>
    refine ⟨?_, hself⟩
    have hhead : s.head = nodes.head? := hinv.shape.chain.head_eq
    show (peekEnd s.size s.cells.contents s.head out).map Answer.ofOut = _
    rw [peekEnd_eq (by rw [hinv.size_eq, hhead]; simp), hhead, ← List.head?_map]
    rfl
  | peekBack out =>
    refine ⟨?_, hself⟩
    have htail : s.tail = nodes.getLast? := hinv.shape.chain.tail_eq
    show (peekEnd s.size s.cells.contents s.tail out).map Answer.ofOut = _
    rw [peekEnd_eq (by rw [hinv.size_eq, htail]; simp), htail, ← List.getLast?_map]
    rfl
  | peekAt index out =>
    refine ⟨?_, hself⟩
    show (peekAt s index out).map Answer.ofOut = _
    rw [peekAt_eq hinv]
    rfl
  | clear =>
    obtain ⟨t, free', heq, hinv', -⟩ := clear_cases hinv
    simp only [SList.call, heq]
    exact ⟨rfl, [], ⟨free', hinv'⟩, rfl⟩
  | forEach visit =>
    refine ⟨?_, hself⟩
    show (forEach cfg s visit).map Answer.ofVisits = _
    rw [forEach, forEachLoop_eq visit hinv.shape.chain.forward hinv.rounds_le]
    rfl

/-! ## Runs -/

/-- The elements from the head. -/
def values (cfg : SListConfig V) (s : SList V) : List V :=
  (trail s.next (rounds cfg s) s.head).map s.cells.contents

theorem values_eq_of_represents (h : (view cfg s).Represents xs) : values cfg s = xs := by
  obtain ⟨nodes, ⟨free, hinv⟩, rfl⟩ := h
  rw [values, hinv.shape.chain.forward.trail_eq hinv.rounds_le]
  rfl

/-- **The list is a sequence**: over any calls on a list over a pool it answers as the reference
list, and after them its elements are those of the reference. -/
theorem refines_listReference (cfg : SListConfig V) (hpolicy : cfg.policy.NonFailing)
    (hpool : cfg.source.fixedPool = true) (links : ℕ → Option ℕ) (memory : ℕ → V)
    (calls : List (Call V)) :
    Mealy.outputs (SList.call cfg) (init cfg links memory) calls =
        (Mealy.outputs (Sequence.call cfg.source.capacity) [] (calls.map Call.twin)).map some ∧
      values cfg (Mealy.final (SList.call cfg) (init cfg links memory) calls) =
        Mealy.final (Sequence.call cfg.source.capacity) [] (calls.map Call.twin) := by
  obtain ⟨free, hinv⟩ := inv_init cfg links memory
  have hinit : (view cfg (init cfg links memory)).Represents [] := ⟨[], ⟨free, hinv⟩, rfl⟩
  obtain ⟨houtputs, hrep⟩ := Mealy.simulation_map some (fun s xs => (view cfg s).Represents xs)
    (fun s xs c hrep => represents_call hrep hpolicy hpool c) hinit calls
  rw [Mealy.outputs_map, Mealy.final_map]
  exact ⟨houtputs, values_eq_of_represents hrep⟩

/-- **The two lists agree**: over pools of the same size, the same calls on a singly and on a doubly
linked list get the same answers, and the lists hold the same elements after them. -/
theorem agrees_with_dlist (cfg : SListConfig V) (cfg' : DListConfig V)
    (hcapacity : cfg.source.capacity = cfg'.source.capacity)
    (hpool : cfg.source.fixedPool = true) (hpool' : cfg'.source.fixedPool = true)
    (hpolicy : cfg.policy.NonFailing) (hpolicy' : cfg'.policy.NonFailing)
    (links links' : ℕ → Option ℕ) (memory memory' : ℕ → V) (calls : List (Call V)) :
    Mealy.outputs (SList.call cfg) (init cfg links memory) calls =
        Mealy.outputs (DList.call cfg') (DList.init cfg' links' memory') (calls.map Call.twin) ∧
      values cfg (Mealy.final (SList.call cfg) (init cfg links memory) calls) =
        DList.values cfg' (Mealy.final (DList.call cfg') (DList.init cfg' links' memory')
          (calls.map Call.twin)) ∧
      ∀ answer ∈ Mealy.outputs (SList.call cfg) (init cfg links memory) calls, answer ≠ none := by
  obtain ⟨houtputs, hvalues⟩ := refines_listReference cfg hpolicy hpool links memory calls
  have hdlist : Mealy.outputs (DList.call cfg') (DList.init cfg' links' memory')
        (calls.map Call.twin) =
      (Mealy.outputs (Sequence.call cfg'.source.capacity) [] (calls.map Call.twin)).map some ∧
      (DList.view cfg' (Mealy.final (DList.call cfg') (DList.init cfg' links' memory')
        (calls.map Call.twin))).Represents
        (Mealy.final (Sequence.call cfg'.source.capacity) [] (calls.map Call.twin)) :=
    Mealy.simulation_map some (fun s xs => (DList.view cfg' s).Represents xs)
      (fun s xs c hrep => DList.represents_call hrep hpolicy' hpool' c)
      (DList.represents_init cfg' links' memory') _
  refine ⟨?_, ?_, fun answer hanswer => ?_⟩
  · rw [houtputs, hdlist.1, hcapacity]
  · rw [hvalues, DList.values_eq_of_represents hdlist.2, hcapacity]
  · rw [houtputs] at hanswer
    obtain ⟨reply, -, rfl⟩ := List.mem_map.mp hanswer
    exact Option.some_ne_none reply

/-- A singly linked list over a pool of three nodes. -/
def tripleList : SListConfig ℕ where
  policy := .bytewise ℕ
  needsDestroy := false
  source := ⟨true, 3, fun _ => .unsupported⟩

/-- Every kind of index, a full pool, and removals of the first, the last and a node between. -/
def tripleCalls : List (Call ℕ) :=
  [.popBack none, .pushBack 2, .insertAt 0 (some 0), .insertAt 1 (some 1), .pushBack 3,
    .insertAt 4 (some 4), .peekBack (some 9), .removeAt 1 (some 9), .removeAt 2 none,
    .removeFirst (fun x => x == 2) (some 9), .peekAt 0 (some 9), .popBack (some 9), .popFront none]

/-- The two lists agree in such a run. -/
theorem agrees_with_dlist_tripleCalls :
    Mealy.outputs (SList.call tripleList) (init tripleList (fun _ => some 0) fun _ => 0)
        tripleCalls =
        [.value .empty none, .status .ok, .status .ok, .status .ok, .status .full, .status .invalid,
          .value .ok (some 2), .value .ok (some 1), .value .invalid none, .value .ok (some 2),
          .value .ok (some 0), .value .ok (some 0), .value .empty none].map some ∧
      Mealy.outputs (SList.call tripleList) (init tripleList (fun _ => some 0) fun _ => 0)
          tripleCalls =
        Mealy.outputs (DList.call DList.tripleList)
          (DList.init DList.tripleList (fun _ => some 1) fun _ => 5) (tripleCalls.map Call.twin) :=
  ⟨by decide +kernel, (agrees_with_dlist tripleList DList.tripleList rfl rfl rfl
    (ElementPolicy.nonFailing_bytewise ℕ) (ElementPolicy.nonFailing_bytewise ℕ) (fun _ => some 0)
    (fun _ => some 1) (fun _ => 0) (fun _ => 5) tripleCalls).1⟩

end SList

end Memkit
