import Memkit.Core.Status
import Memkit.Foundations.Checked
import Memkit.Foundations.SparseIndex

/-! # Sparse sets

`sparse_set_core` of `detail/sparse_set_core.hpp`: a set of identifiers below `max_id` in two arrays
that are never initialised. Every access is checked against the bounds of the arrays, so that a call
that fails is one that reads or writes outside them.

* **`call`** — the operations, which may fail by such an access.
* **`SetOfIds.call`** — the reference: a finite set of identifiers.
* **`init_refines_set`** — after `init`, whatever the arrays held, no call fails and every answer is
  that of the reference. -/

namespace Memkit

open Mealy Checked BinaryHeap SparseIndex

variable {w : ℕ}

/-- The members of `sparse_set_core`. -/
structure SparseSet (w : ℕ) where
  /-- What `dense_` points to. -/
  dense : ℕ → BitVec w
  /-- What `sparse_` points to. -/
  sparse : ℕ → BitVec w
  /-- `max_id_`, the length of both arrays. -/
  maxId : BitVec w
  /-- `size_`. -/
  size : BitVec w

namespace SparseSet

/-- `init`; a pointer is `none` if it is null. -/
def init (s : SparseSet w) (dense sparse : Option (ℕ → BitVec w)) (maxId : BitVec w) :
    Status × SparseSet w :=
  match dense, sparse with
  | some dense, some sparse => if maxId = 0 then (.invalid, s) else (.ok, ⟨dense, sparse, maxId, 0⟩)
  | _, _ => (.invalid, s)

/-- `contains`. -/
def contains (s : SparseSet w) (id : BitVec w) : Option Bool :=
  if s.maxId ≤ id then some false
  else do
    let pos ← readAt s.maxId.toNat s.sparse id.toNat
    if pos < s.size then
      let x ← readAt s.maxId.toNat s.dense pos.toNat
      some (decide (x = id))
    else some false

/-- `insert`. -/
def insert (s : SparseSet w) (id : BitVec w) : Option (Status × SparseSet w) :=
  if s.maxId ≤ id then some (.invalid, s)
  else do
    let found ← s.contains id
    if found then some (.ok, s)
    else
      let dense ← writeAt s.maxId.toNat s.dense s.size.toNat id
      let sparse ← writeAt s.maxId.toNat s.sparse id.toNat s.size
      some (.ok, { s with dense := dense, sparse := sparse, size := s.size + 1 })

/-- `remove`. -/
def remove (s : SparseSet w) (id : BitVec w) : Option (Status × SparseSet w) := do
  let found ← s.contains id
  if !found then some (.notFound, s)
  else
    let pos ← readAt s.maxId.toNat s.sparse id.toNat
    let lastId ← readAt s.maxId.toNat s.dense (s.size - 1).toNat
    let dense ← writeAt s.maxId.toNat s.dense pos.toNat lastId
    let sparse ← writeAt s.maxId.toNat s.sparse lastId.toNat pos
    let sparse ← writeAt s.maxId.toNat sparse id.toNat 0
    some (.ok, { s with dense := dense, sparse := sparse, size := s.size - 1 })

/-- `clear`. -/
def clear (s : SparseSet w) : SparseSet w := { s with size := 0 }

/-- A call on the set. -/
inductive Call (w : ℕ)
  | insert (id : BitVec w)
  | remove (id : BitVec w)
  | contains (id : BitVec w)
  | clear
  deriving DecidableEq, Repr

/-- What a call returns. -/
inductive Reply
  | status (result : Status)
  | contains (result : Bool)
  | done
  deriving DecidableEq, Repr

/-- Dispatch a call. -/
def call (s : SparseSet w) : Call w → Option (Reply × SparseSet w)
  | .insert id => (s.insert id).map fun r => (.status r.1, r.2)
  | .remove id => (s.remove id).map fun r => (.status r.1, r.2)
  | .contains id => (s.contains id).map fun found => (.contains found, s)
  | .clear => some (.done, s.clear)

/-- `dense[0..size)`. -/
def members (s : SparseSet w) : List (BitVec w) := items s.dense s.size.toNat

/-- The sparse array, by identifier. -/
def position (sparse : ℕ → BitVec w) (id : BitVec w) : ℕ := (sparse id.toNat).toNat

end SparseSet

/-- The reference: a finite set of the identifiers below `max_id`. -/
def SetOfIds.call (maxId : BitVec w) (t : Finset (BitVec w)) :
    SparseSet.Call w → SparseSet.Reply × Finset (BitVec w)
  | .insert id => if id < maxId then (.status .ok, insert id t) else (.status .invalid, t)
  | .remove id => if id ∈ t then (.status .ok, t.erase id) else (.status .notFound, t)
  | .contains id => (.contains (decide (id ∈ t)), t)
  | .clear => (.done, ∅)

namespace SparseSet

variable {s : SparseSet w} {t : Finset (BitVec w)} {maxId id : BitVec w}

/-- The set is in the arrays. -/
structure Refines (maxId : BitVec w) (s : SparseSet w) (t : Finset (BitVec w)) : Prop where
  maxId_eq : s.maxId = maxId
  linked : Linked s.dense (position s.sparse) s.size.toNat
  mem_iff : ∀ id, id ∈ s.members ↔ id ∈ t
  lt_maxId : ∀ id ∈ t, id < maxId

/-- Writing an entry of the sparse array. -/
theorem position_update (sparse : ℕ → BitVec w) (id pos : BitVec w) :
    position (Function.update sparse id.toNat pos) =
      Function.update (position sparse) id pos.toNat := by
  funext x
  unfold position
  by_cases hx : x = id
  · rw [hx, Function.update_self, Function.update_self]
  · have hne : x.toNat ≠ id.toNat := fun h => hx (BitVec.eq_of_toNat_eq h)
    rw [Function.update_of_ne hne, Function.update_of_ne hx]

/-- There are no more members than identifiers. -/
theorem card_le (hlt : ∀ id ∈ t, id < maxId) : t.card ≤ maxId.toNat := by
  rw [← Finset.card_range maxId.toNat]
  refine Finset.card_le_card_of_injOn BitVec.toNat ?_ ?_
  · intro id hid
    rw [Finset.coe_range, Set.mem_Iio]
    exact BitVec.lt_def.mp (hlt id hid)
  · intro x _ y _ hxy
    exact BitVec.eq_of_toNat_eq hxy

namespace Refines

theorem nodup (h : Refines maxId s t) : s.members.Nodup := h.linked.nodup

theorem toFinset_members (h : Refines maxId s t) : s.members.toFinset = t := by
  ext id
  rw [List.mem_toFinset, h.mem_iff]

/-- The size is the number of members. -/
theorem card_eq (h : Refines maxId s t) : s.size.toNat = t.card := by
  rw [← h.toFinset_members, List.toFinset_card_of_nodup h.nodup, members, length_items]

theorem size_le (h : Refines maxId s t) : s.size.toNat ≤ s.maxId.toNat := by
  rw [h.card_eq, h.maxId_eq]
  exact card_le h.lt_maxId

/-- As long as an identifier is missing there is room for it. -/
theorem size_lt (h : Refines maxId s t) (hid : id < maxId) (hmem : id ∉ t) :
    s.size.toNat < s.maxId.toNat := by
  have hcard : (Insert.insert id t).card ≤ maxId.toNat := by
    apply card_le
    intro x hx
    rcases Finset.mem_insert.mp hx with rfl | hx
    · exact hid
    · exact h.lt_maxId x hx
  rw [Finset.card_insert_of_notMem hmem] at hcard
  rw [h.card_eq, h.maxId_eq]
  omega

/-- A member is an index of the arrays. -/
theorem toNat_lt (h : Refines maxId s t) (hmem : id ∈ t) : id.toNat < s.maxId.toNat := by
  rw [h.maxId_eq]
  exact BitVec.lt_def.mp (h.lt_maxId id hmem)

/-- **The membership test** never leaves the arrays. -/
theorem contains_eq (h : Refines maxId s t) (id : BitVec w) :
    s.contains id = some (decide (id ∈ t)) := by
  unfold contains
  by_cases hle : s.maxId ≤ id
  · have hmem : id ∉ t := by
      intro hid
      rw [h.maxId_eq] at hle
      exact BitVec.not_lt.mpr hle (h.lt_maxId id hid)
    rw [if_pos hle, decide_eq_false hmem]
  · have hlt : id.toNat < s.maxId.toNat := BitVec.lt_def.mp (BitVec.not_le.mp hle)
    have hiff := h.linked.mem_iff (x := id)
    rw [if_neg hle, readAt_of_lt hlt, Option.bind_eq_bind, Option.bind_some]
    by_cases hpos : s.sparse id.toNat < s.size
    · have hpos' := BitVec.lt_def.mp hpos
      rw [if_pos hpos, readAt_of_lt (hpos'.trans_le h.size_le), Option.bind_some]
      congr 1
      rw [decide_eq_decide, ← h.mem_iff]
      exact (hiff.trans (and_iff_right hpos')).symm
    · have hmem : id ∉ t := by
        intro hid
        exact hpos (BitVec.lt_def.mpr (hiff.mp ((h.mem_iff id).mpr hid)).1)
      rw [if_neg hpos, decide_eq_false hmem]

/-- **Inserting.** -/
theorem insert_eq (h : Refines maxId s t) (hid : id < maxId) :
    ∃ s', s.insert id = some (.ok, s') ∧ Refines maxId s' (Insert.insert id t) := by
  have hle : ¬ s.maxId ≤ id := by
    rw [h.maxId_eq]
    exact BitVec.not_le.mpr hid
  unfold insert
  rw [if_neg hle, h.contains_eq]
  by_cases hmem : id ∈ t
  · refine ⟨s, ?_, ?_⟩
    · simp only [hmem, decide_true, Option.bind_eq_bind, Option.bind_some, if_true]
    · rw [Finset.insert_eq_of_mem hmem]
      exact h
  · have hsize := h.size_lt hid hmem
    have hlt : id.toNat < s.maxId.toNat := BitVec.lt_def.mp (BitVec.not_le.mp hle)
    have hsucc : (s.size + 1).toNat = s.size.toNat + 1 := WrapCounter.toNat_succ hsize
    obtain ⟨hlinked, hitems⟩ := h.linked.push (mt (h.mem_iff id).mp hmem)
    refine ⟨{ s with
        dense := Function.update s.dense s.size.toNat id
        sparse := Function.update s.sparse id.toNat s.size
        size := s.size + 1 }, ?_, h.maxId_eq, ?_, ?_, ?_⟩
    · simp only [hmem, decide_false, Option.bind_eq_bind, Option.bind_some, Bool.false_eq_true,
        if_false, writeAt_of_lt hsize, writeAt_of_lt hlt]
    · rw [hsucc, position_update]
      exact hlinked
    · intro x
      rw [members, hsucc, hitems, List.mem_append, List.mem_singleton, Finset.mem_insert, or_comm]
      exact or_congr_right (h.mem_iff x)
    · intro x hx
      rcases Finset.mem_insert.mp hx with rfl | hx
      · exact hid
      · exact h.lt_maxId x hx

/-- **Removing.** -/
theorem remove_eq (h : Refines maxId s t) (hmem : id ∈ t) :
    ∃ s', s.remove id = some (.ok, s') ∧ Refines maxId s' (t.erase id) := by
  have hsize : s.size ≠ 0 := by
    intro hzero
    have hcard : t.card = 0 := by
      rw [← h.card_eq, hzero]
      rfl
    rw [Finset.card_eq_zero.mp hcard] at hmem
    exact Finset.notMem_empty id hmem
  have hpred : (s.size - 1).toNat + 1 = s.size.toNat := WrapCounter.toNat_pred hsize
  have hlinked := h.linked
  rw [← hpred] at hlinked
  have hitem : id ∈ items s.dense ((s.size - 1).toNat + 1) := by
    rw [hpred]
    exact (h.mem_iff id).mpr hmem
  -- the last element is a member, so it too is an index of the sparse array
  have hlast : s.dense (s.size - 1).toNat ∈ t := by
    rw [← h.mem_iff, members, ← hpred]
    exact mem_items.mpr ⟨_, Nat.lt_succ_self _, rfl⟩
  have hpos : (s.sparse id.toNat).toNat < s.maxId.toNat := by
    have hlt := (h.linked.mem_iff.mp ((h.mem_iff id).mpr hmem)).1
    exact hlt.trans_le h.size_le
  have hend : (s.size - 1).toNat < s.maxId.toNat := by
    have hle := h.size_le
    omega
  obtain ⟨hlinked', hmembers⟩ := hlinked.swapRemove hitem (0 : BitVec w).toNat
  refine ⟨{ s with
      dense := Function.update s.dense (s.sparse id.toNat).toNat (s.dense (s.size - 1).toNat)
      sparse := Function.update
        (Function.update s.sparse (s.dense (s.size - 1).toNat).toNat (s.sparse id.toNat)) id.toNat 0
      size := s.size - 1 }, ?_, h.maxId_eq, ?_, ?_, ?_⟩
  · unfold remove
    simp only [h.contains_eq, hmem, decide_true, Option.bind_eq_bind, Option.bind_some,
      Bool.not_true, Bool.false_eq_true, if_false, readAt_of_lt (h.toNat_lt hmem),
      readAt_of_lt hend, writeAt_of_lt hpos, writeAt_of_lt (h.toNat_lt hlast),
      writeAt_of_lt (h.toNat_lt hmem)]
  · rw [position_update, position_update]
    exact hlinked'
  · intro x
    rw [Finset.mem_erase, and_comm, ← h.mem_iff, members, members, ← hpred]
    exact hmembers x
  · intro x hx
    exact h.lt_maxId x (Finset.mem_of_mem_erase hx)

/-- **Clearing** leaves the arrays as they are. -/
theorem clear (h : Refines maxId s t) : Refines maxId s.clear ∅ where
  maxId_eq := h.maxId_eq
  linked := linked_zero _ _
  mem_iff id := by simp [members, SparseSet.clear, items]
  lt_maxId id hid := absurd hid (Finset.notMem_empty id)

/-- **Every call** answers as the reference and stays inside the arrays. -/
theorem call_eq (h : Refines maxId s t) (c : Call w) :
    ∃ s', call s c = some ((SetOfIds.call maxId t c).1, s') ∧
      Refines maxId s' (SetOfIds.call maxId t c).2 := by
  cases c with
  | insert id =>
    by_cases hid : id < maxId
    · obtain ⟨s', hinsert, href⟩ := h.insert_eq hid
      simp only [SetOfIds.call, if_pos hid]
      exact ⟨s', by rw [call, hinsert, Option.map_some], href⟩
    · have hle : s.maxId ≤ id := by
        rw [h.maxId_eq]
        exact BitVec.not_lt.mp hid
      simp only [SetOfIds.call, if_neg hid]
      exact ⟨s, by rw [call, insert, if_pos hle, Option.map_some], h⟩
  | remove id =>
    by_cases hmem : id ∈ t
    · obtain ⟨s', hremove, href⟩ := h.remove_eq hmem
      simp only [SetOfIds.call, if_pos hmem]
      exact ⟨s', by rw [call, hremove, Option.map_some], href⟩
    · simp only [SetOfIds.call, if_neg hmem]
      refine ⟨s, ?_, h⟩
      simp only [call, remove, h.contains_eq, hmem, decide_false, Option.bind_eq_bind,
        Option.bind_some, Bool.not_false, if_true, Option.map_some]
  | contains id => exact ⟨s, by rw [call, h.contains_eq, Option.map_some]; rfl, h⟩
  | clear => exact ⟨s.clear, rfl, h.clear⟩

end Refines

/-- The set after `init` is empty, whatever the arrays held. -/
theorem refines_init {dense sparse : Option (ℕ → BitVec w)}
    (hinit : (s.init dense sparse maxId).1 = .ok) : Refines maxId (s.init dense sparse maxId).2 ∅ := by
  unfold init at hinit ⊢
  split at hinit
  · split at hinit
    · cases hinit
    · rename_i hzero
      simp only [if_neg hzero]
      exact ⟨rfl, linked_zero _ _, fun id => by simp [members, items],
        fun id hid => absurd hid (Finset.notMem_empty id)⟩
  · cases hinit

/-- A rejected operation changes nothing. -/
theorem Refines.rejected (h : Refines maxId s t) {c : Call w} {st : Status} {s' : SparseSet w}
    (hcall : call s c = some (.status st, s')) (hst : st ≠ .ok) : s' = s := by
  cases c with
  | insert id =>
    by_cases hid : id < maxId
    · obtain ⟨u, hinsert, -⟩ := h.insert_eq hid
      rw [call, hinsert, Option.map_some] at hcall
      cases hcall
      exact absurd rfl hst
    · have hle : s.maxId ≤ id := by
        rw [h.maxId_eq]
        exact BitVec.not_lt.mp hid
      rw [call, insert, if_pos hle, Option.map_some] at hcall
      cases hcall
      rfl
  | remove id =>
    by_cases hmem : id ∈ t
    · obtain ⟨u, hremove, -⟩ := h.remove_eq hmem
      rw [call, hremove, Option.map_some] at hcall
      cases hcall
      exact absurd rfl hst
    · simp only [call, remove, h.contains_eq, hmem, decide_false, Option.bind_eq_bind,
        Option.bind_some, Bool.not_false, if_true, Option.map_some] at hcall
      cases hcall
      rfl
  | contains id =>
    rw [call, h.contains_eq, Option.map_some] at hcall
    cases hcall
  | clear => cases hcall

/-- **The sparse set is a finite set**, whatever its arrays held before `init`: no call leaves the
arrays, every answer is that of the reference, and the dense array lists the members. -/
theorem init_refines_set (s : SparseSet w) (dense sparse : Option (ℕ → BitVec w)) (maxId : BitVec w)
    (hinit : (s.init dense sparse maxId).1 = .ok) (calls : List (Call w)) :
    outputs (checked call) (some (s.init dense sparse maxId).2) calls =
        (outputs (SetOfIds.call maxId) ∅ calls).map some ∧
      ∃ s', final (checked call) (some (s.init dense sparse maxId).2) calls = some s' ∧
        (∀ id, s'.contains id = some (decide (id ∈ final (SetOfIds.call maxId) ∅ calls))) ∧
        s'.members.Nodup ∧
        (∀ id, id ∈ s'.members ↔ id ∈ final (SetOfIds.call maxId) ∅ calls) ∧
        (∀ i < s'.size.toNat, (s'.sparse (s'.dense i).toNat).toNat = i) ∧
        s'.size.toNat = (final (SetOfIds.call maxId) ∅ calls).card ∧
        ∀ c st s'', call s' c = some (.status st, s'') → st ≠ .ok → s'' = s' := by
  obtain ⟨hout, s', hfinal, href⟩ := checked_simulation (Refines maxId)
    (fun _ _ c h => h.call_eq c) (refines_init hinit) calls
  exact ⟨hout, s', hfinal, href.contains_eq, href.nodup, href.mem_iff, href.linked, href.card_eq,
    fun _ _ _ hcall hst => href.rejected hcall hst⟩

/-- Arrays that look like a full set, and the removal of the last element itself. -/
theorem init_refines_set_garbage :
    let s₀ : SparseSet 8 := ⟨fun _ => 0, fun _ => 0, 0, 0⟩
    let garbage : Option (ℕ → BitVec 8) := some fun i => BitVec.ofNat 8 i
    let calls : List (Call 8) :=
      [.contains 2, .insert 2, .insert 0, .insert 9, .remove 0, .contains 0, .clear, .contains 2]
    outputs (checked call) (some (s₀.init garbage garbage 3).2) calls =
        [.contains false, .status .ok, .status .ok, .status .invalid, .status .ok, .contains false,
          .done, .contains false].map some ∧
      ∃ s', final (checked call) (some (s₀.init garbage garbage 3).2) calls = some s' ∧
        s'.members.Nodup := by
  intro s₀ garbage calls
  obtain ⟨hout, s', hfinal, -, hnodup, -⟩ := init_refines_set s₀ garbage garbage 3 (by decide) calls
  exact ⟨hout.trans (by decide), s', hfinal, hnodup⟩

end SparseSet

end Memkit
