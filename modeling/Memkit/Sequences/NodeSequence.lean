import Memkit.Core.NodeView
import Memkit.Core.NodeWalks
import Memkit.Sequences.ListReference

/-! # Lists of nodes stand for sequences

An insertion or a removal on the nodes of a container is one on the reference list of the elements
in them, when copies do not fail.

* **`Represents`** — the container stands for the elements of its nodes.
* **`Inserts.represents`, `Takes.represents`** — the two operations. -/

namespace Memkit

namespace NodeView

variable {V : Type*} {v v' : NodeView V} {nodes as bs : List ℕ} {slot : ℕ} {xs : List V}
  {policy : ElementPolicy V} {src : NodeSource}

/-- The container stands for the elements of its nodes. -/
def Represents (v : NodeView V) (xs : List V) : Prop :=
  ∃ nodes, v.shape nodes ∧ xs = nodes.map v.cells.contents

/-- What kept the nodes kept the elements. -/
theorem Kept.represents (h : Kept v v' nodes) : v'.Represents (nodes.map v.cells.contents) :=
  ⟨nodes, h.shape, (List.map_congr_left h.contents).symm⟩

/-- **Inserting** a node inserts its element. -/
theorem Inserts.represents {value : V} {st : Status} (h : Inserts policy src v v' value as bs st)
    (hpolicy : policy.NonFailing) (hpool : src.fixedPool = true) :
    let q := Sequence.insert src.capacity ((as ++ bs).map v.cells.contents) as.length value
    st = q.1 ∧ v'.Represents q.2 := by
  rcases h with ⟨-, hkept, hfull⟩ | ⟨slot, hok, hadded, hroom⟩
  · obtain ⟨hst, hlength⟩ := hfull hpolicy hpool
    rw [Sequence.insert, if_pos (by rw [List.length_map]; exact hlength.ge)]
    exact ⟨hst, hkept.represents⟩
  · rw [Sequence.insert, if_neg (by rw [List.length_map]; exact not_le.mpr (hroom hpool))]
    refine ⟨hok, as ++ slot :: bs, hadded.shape, ?_⟩
    have hfront := List.map_congr_left fun i hi => hadded.contents i (List.mem_append_left bs hi)
    have hback := List.map_congr_left fun i hi => hadded.contents i (List.mem_append_right as hi)
    have hlength : as.length = (as.map v.cells.contents).length := (List.length_map _).symm
    rw [List.map_append, List.map_append, List.map_cons, hfront, hback,
      hadded.value hpolicy.faithful, hlength]
    exact Sequence.insertIdx_append _ _ _

/-- **Taking out** a node takes out its element. -/
theorem Takes.represents {needsDestroy : Bool} {out : Option V} {result : Status × Option V}
    (h : Takes policy needsDestroy v v' as bs slot out result) (hpolicy : policy.NonFailing) :
    result = (.ok, out.map fun _ => v.cells.contents slot) ∧
      v'.Represents (((as ++ slot :: bs).map v.cells.contents).eraseIdx as.length) := by
  rcases h with ⟨-, -, hfails⟩ | ⟨hok, hout, hremoved⟩
  · exact absurd hpolicy hfails
  · refine ⟨Prod.ext hok (hout hpolicy.faithful), as ++ bs, hremoved.shape, ?_⟩
    rw [List.map_congr_left hremoved.contents, List.eraseIdx_map,
      List.eraseIdx_append_of_length_le le_rfl, Nat.sub_self, List.eraseIdx_cons_zero]

end NodeView

/-- A list split at an index. -/
theorem exists_split_getElem {α : Type*} (xs : List α) {index : ℕ} (h : index < xs.length) :
    ∃ as bs, xs = as ++ xs[index] :: bs ∧ as.length = index := by
  refine ⟨xs.take index, xs.drop (index + 1), ?_, ?_⟩
  · rw [List.getElem_cons_drop, List.take_append_drop]
  · rw [List.length_take]
    omega

namespace NodeView

variable {V : Type*} {v v' : NodeView V} {nodes : List ℕ} {policy : ElementPolicy V}

/-- **A removal at an index** is one on the reference list. -/
theorem represents_take (needsDestroy : Bool) {index : ℕ} {missing : Status} {out : Option V}
    {result : Status × Option V} (hshape : v.shape nodes) (hpolicy : policy.NonFailing)
    (hnone : nodes[index]? = none → result = (missing, out) ∧ v' = v)
    (hsome : ∀ as bs slot, nodes = as ++ slot :: bs → as.length = index →
      Takes policy needsDestroy v v' as bs slot out result) :
    let q := Sequence.take (nodes.map v.cells.contents) index missing out
    result = q.1 ∧ v'.Represents q.2 := by
  unfold Sequence.take
  rw [List.getElem?_map]
  by_cases hindex : index < nodes.length
  · obtain ⟨as, bs, hsplit, hlength⟩ := exists_split_getElem nodes hindex
    obtain ⟨hresult, hrep⟩ := (hsome as bs _ hsplit hlength).represents hpolicy
    rw [List.getElem?_eq_getElem hindex]
    rw [← hsplit, hlength] at hrep
    exact ⟨hresult, hrep⟩
  · have hget : nodes[index]? = none := List.getElem?_eq_none (by omega)
    obtain ⟨hresult, rfl⟩ := hnone hget
    rw [hget]
    exact ⟨hresult, nodes, hshape, rfl⟩

end NodeView

/-- Reading the node at an end, which is null exactly if the list is empty. -/
theorem peekEnd_eq {V : Type*} {size : ℕ} {contents : ℕ → V} {node : Option ℕ}
    (hnode : size = 0 ↔ node = none) (out : Option V) :
    peekEnd size contents node out = some (Deque.peek (node.map contents) .empty out) := by
  unfold peekEnd
  cases out with
  | none => rfl
  | some out =>
    cases node with
    | none => exact if_pos (hnode.mpr rfl)
    | some node =>
      have hne : size ≠ 0 := fun hzero => by cases hnode.mp hzero
      exact if_neg hne

end Memkit
