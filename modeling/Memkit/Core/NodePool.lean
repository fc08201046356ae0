import Memkit.Core.Status
import Memkit.Foundations.LinkedChain

/-! # Node pools

The lists and the tree take their nodes from a fixed pool, whose free nodes are linked through a
link of the node itself, or from an allocator. Nodes are numbered: those of a pool in their order,
those of an allocator in the order of the requests, as a node that was given back is not used again
under its number.

* **`acquire`, `release`, `initFreeList`** — as the containers write them.
* **`Apart`** — the nodes in use and the free nodes are apart, and a pool has no others. -/

namespace Memkit

open LinkedChain

/-- Where the nodes of a container come from. -/
structure NodeSource where
  /-- Whether the flags have the `fixed_pool` bit. -/
  fixedPool : Bool
  /-- `node_capacity_`. -/
  capacity : ℕ
  /-- What the `n`-th request outside of a pool returns: `oom` if `malloc` fails, `unsupported` if
  there is no heap, and for a tree with an arena the status of `arena_alloc_fn_`. -/
  request : ℕ → Status

/-- The free list, and a link of every node. -/
structure NodePool where
  /-- `free_list_`. -/
  freeList : Option ℕ
  /-- The link through which the free list runs: `next` of a list node, `left` of a tree node. -/
  next : ℕ → Option ℕ
  /-- Requests made so far. -/
  requests : ℕ

namespace NodePool

/-- Write the link of a node. -/
def setLink (p : NodePool) (node : ℕ) (link : Option ℕ) : NodePool :=
  { p with next := Function.update p.next node link }

/-- `acquire_node`: a node with a null link. -/
def acquire (src : NodeSource) (p : NodePool) : Except Status ℕ × NodePool :=
  if src.fixedPool then
    match p.freeList with
    | none => (.error .full, p)
    | some slot => (.ok slot, { p with freeList := p.next slot }.setLink slot none)
  else
    let st := src.request p.requests
    let node := p.requests
    let p := { p with requests := p.requests + 1 }
    if st ≠ .ok then (.error st, p) else (.ok node, p.setLink node none)

/-- `release_node`: a node that is not of a pool goes back to the allocator. -/
def release (src : NodeSource) (p : NodePool) (slot : ℕ) : NodePool :=
  if src.fixedPool then { p.setLink slot p.freeList with freeList := some slot } else p

/-- One round of the loop of `init_free_list`. -/
def addFree (p : NodePool) (slot : ℕ) : NodePool :=
  { p.setLink slot p.freeList with freeList := some slot }

/-- `init_free_list`. -/
def initFreeList (src : NodeSource) (p : NodePool) : NodePool :=
  (List.range src.capacity).foldl addFree { p with freeList := none }

/-- The nodes after `init` or `init_dynamic`, over memory with any contents. -/
def init (src : NodeSource) (memory : ℕ → Option ℕ) : NodePool :=
  if src.fixedPool then initFreeList src ⟨none, memory, 0⟩ else ⟨none, memory, 0⟩

/-! ## Nodes in use and free nodes -/

/-- The nodes `used` are in use and the free list is `free`. The nodes of a pool are in one of the
two, once; nodes of an allocator were requested. -/
structure Apart (src : NodeSource) (p : NodePool) (used free : List ℕ) : Prop where
  free_walk : Seg p.next p.freeList free none
  nodup : (used ++ free).Nodup
  of_pool : src.fixedPool = true → (used ++ free).Perm (List.range src.capacity)
  requested : src.fixedPool = false → free = [] ∧ ∀ i ∈ used, i < p.requests

variable {src : NodeSource} {p p' : NodePool} {used used' free : List ℕ} {slot : ℕ}

theorem Apart.notMem (h : Apart src p used free) {i : ℕ} (hi : i ∈ used) : i ∉ free :=
  fun hfree => List.disjoint_of_nodup_append h.nodup hi hfree

/-- The order of the nodes in use does not matter. -/
theorem Apart.perm (h : Apart src p used free) (hperm : used.Perm used') :
    Apart src p used' free where
  free_walk := h.free_walk
  nodup := (hperm.append_right free).nodup_iff.mp h.nodup
  of_pool hpool := (hperm.append_right free).symm.trans (h.of_pool hpool)
  requested hdyn :=
    ⟨(h.requested hdyn).1, fun i hi => (h.requested hdyn).2 i (hperm.mem_iff.mpr hi)⟩

/-- **Frame rule**: the links of nodes in use do not matter. -/
theorem Apart.congr (h : Apart src p used free) (hlist : p'.freeList = p.freeList)
    (hnext : ∀ i ∈ free, p'.next i = p.next i) (hrequests : p'.requests = p.requests) :
    Apart src p' used free where
  free_walk := by
    rw [hlist]
    exact (seg_congr hnext).mpr h.free_walk
  nodup := h.nodup
  of_pool := h.of_pool
  requested := by
    rw [hrequests]
    exact h.requested

/-- Writing the link of a node in use. -/
theorem Apart.setLink (h : Apart src p used free) (hslot : slot ∈ used) (link : Option ℕ) :
    Apart src (p.setLink slot link) used free := by
  refine h.congr rfl (fun i hi => Function.update_of_ne ?_ _ _) rfl
  rintro rfl
  exact h.notMem hslot hi

/-- **`acquire_node`** fails and leaves the links alone, or gives a node that was not in use. -/
theorem Apart.acquire (h : Apart src p used free) :
    (∃ st p', p.acquire src = (.error st, p') ∧ st ≠ .ok ∧ p'.next = p.next ∧
      Apart src p' used free ∧ (src.fixedPool = true → st = .full ∧ free = [])) ∨
    ∃ slot p' free', p.acquire src = (.ok slot, p') ∧ slot ∉ used ∧
      p'.next = Function.update p.next slot none ∧ Apart src p' (slot :: used) free' ∧
      (src.fixedPool = true → free = slot :: free') := by
  unfold NodePool.acquire
  -- the free list of a fixed pool, or a block of its own for each node
  by_cases hpool : src.fixedPool = true
  · rw [if_pos hpool]
    cases free with
    | nil =>
      have hlist : p.freeList = none := h.free_walk
      rw [hlist]
      exact .inl ⟨.full, p, rfl, by decide, rfl, h, fun _ => ⟨rfl, rfl⟩⟩
    | cons slot free =>
      obtain ⟨hlist, hwalk⟩ := h.free_walk
      have hperm : (slot :: used ++ free).Perm (used ++ slot :: free) := List.perm_middle.symm
      have hnodup := hperm.nodup_iff.mpr h.nodup
      -- the head of the free list moves to the nodes in use
      have hslot : slot ∉ used ++ free := (List.nodup_cons.mp hnodup).1
      rw [List.mem_append, not_or] at hslot
      rw [hlist]
      refine .inr ⟨slot, _, free, rfl, hslot.1, rfl, ?_, fun _ => rfl⟩
      exact
        { free_walk := (seg_update hslot.2 none).mpr hwalk
          nodup := hnodup
          of_pool := fun _ => hperm.trans (h.of_pool hpool)
          requested := fun hdyn => absurd hpool (by simp [hdyn]) }
  · have hdyn := Bool.eq_false_of_not_eq_true hpool
    obtain ⟨rfl, hlt⟩ := h.requested hdyn
    rw [if_neg hpool]
    by_cases hst : src.request p.requests ≠ .ok
    · simp only [if_pos hst]
      refine .inl ⟨_, _, rfl, hst, rfl, ?_, fun hfixed => absurd hfixed hpool⟩
      exact
        { free_walk := h.free_walk
          nodup := h.nodup
          of_pool := h.of_pool
          requested := fun _ => ⟨rfl, fun i hi => Nat.lt_succ_of_lt (hlt i hi)⟩ }
    · simp only [if_neg hst]
      -- the block of a request is named after its number, above those of the nodes in use
      have hnew : p.requests ∉ used := fun hmem => (hlt _ hmem).false
      refine .inr ⟨_, _, [], rfl, hnew, rfl, ?_, fun hfixed => absurd hfixed hpool⟩
      refine
        { free_walk := h.free_walk
          nodup := List.nodup_cons.mpr ⟨by simpa using hnew, h.nodup⟩
          of_pool := fun hfixed => absurd hfixed hpool
          requested := fun _ => ⟨rfl, fun i hi => ?_⟩ }
      rcases List.mem_cons.mp hi with rfl | hi
      · exact Nat.lt_succ_self _
      · exact Nat.lt_succ_of_lt (hlt i hi)

/-- **`release_node`** ends the use of a node. -/
theorem Apart.release (h : Apart src p (slot :: used) free) :
    ∃ free', Apart src (p.release src slot) used free' ∧
      ∀ i, i ≠ slot → (p.release src slot).next i = p.next i := by
  unfold NodePool.release
  by_cases hpool : src.fixedPool = true
  · have hslot := h.notMem List.mem_cons_self
    have hperm : (slot :: used ++ free).Perm (used ++ slot :: free) := List.perm_middle.symm
    rw [if_pos hpool]
    refine ⟨slot :: free, ?_, fun i hi => Function.update_of_ne hi _ _⟩
    exact
      { free_walk := h.free_walk.push hslot
        nodup := hperm.nodup_iff.mp h.nodup
        of_pool := fun _ => hperm.symm.trans (h.of_pool hpool)
        requested := fun hdyn => absurd hpool (by simp [hdyn]) }
  · rw [if_neg hpool]
    obtain ⟨rfl, hlt⟩ := h.requested (Bool.eq_false_of_not_eq_true hpool)
    refine ⟨[], ?_, fun _ _ => rfl⟩
    exact
      { free_walk := h.free_walk
        nodup := (List.nodup_cons.mp h.nodup).2
        of_pool := fun hfixed => absurd hfixed hpool
        requested := fun _ => ⟨rfl, fun i hi => hlt i (List.mem_cons_of_mem slot hi)⟩ }

/-- The loop of `init_free_list` puts the nodes in front of the free list, one by one. -/
theorem foldl_addFree (slots free : List ℕ) (p : NodePool) (hwalk : Seg p.next p.freeList free none)
    (hnodup : (slots.reverse ++ free).Nodup) :
    Seg (slots.foldl addFree p).next (slots.foldl addFree p).freeList (slots.reverse ++ free)
      none := by
  induction slots generalizing free p with
  | nil => exact hwalk
  | cons slot slots ih =>
    have hlist : (slot :: slots).reverse ++ free = slots.reverse ++ slot :: free := by simp
    rw [hlist] at hnodup ⊢
    have hslot : slot ∉ free := (List.nodup_cons.mp (List.nodup_append.mp hnodup).2.1).1
    exact ih (slot :: free) (p.addFree slot) (hwalk.push hslot) hnodup

/-- **`init_free_list`** makes every node of a pool free. -/
theorem apart_initFreeList (hpool : src.fixedPool = true) (p : NodePool) :
    Apart src (initFreeList src p) [] (List.range src.capacity).reverse where
  free_walk := by
    have hwalk := foldl_addFree (List.range src.capacity) [] { p with freeList := none } rfl
    rw [List.append_nil] at hwalk
    exact hwalk (List.nodup_reverse.mpr List.nodup_range)
  nodup := List.nodup_reverse.mpr List.nodup_range
  of_pool _ := List.reverse_perm _
  requested hdyn := absurd hpool (by simp [hdyn])

theorem apart_init (src : NodeSource) (memory : ℕ → Option ℕ) :
    ∃ free, Apart src (init src memory) [] free := by
  unfold NodePool.init
  by_cases hpool : src.fixedPool = true
  · rw [if_pos hpool]
    exact ⟨_, apart_initFreeList hpool _⟩
  · rw [if_neg hpool]
    exact ⟨[], rfl, List.nodup_nil, fun hfixed => absurd hfixed hpool,
      fun _ => ⟨rfl, fun i hi => absurd hi List.not_mem_nil⟩⟩

/-- A list of nodes in use is no longer than the nodes there are. -/
theorem Apart.length_le (h : Apart src p used free) : used.length ≤ src.capacity + p.requests := by
  by_cases hpool : src.fixedPool = true
  · have hlength := (h.of_pool hpool).length_eq
    rw [List.length_append, List.length_range] at hlength
    omega
  · obtain ⟨-, hlt⟩ := h.requested (Bool.eq_false_of_not_eq_true hpool)
    have hnodup := (List.nodup_append.mp h.nodup).1
    have hsub : used ⊆ List.range p.requests := fun i hi => List.mem_range.mpr (hlt i hi)
    have hle := (List.subperm_of_subset hnodup hsub).length_le
    rw [List.length_range] at hle
    omega

/-- The nodes in use are at most the capacity of a pool. -/
theorem Apart.length_add (h : Apart src p used free) (hpool : src.fixedPool = true) :
    used.length + free.length = src.capacity := by
  rw [← List.length_append, (h.of_pool hpool).length_eq, List.length_range]

end NodePool

end Memkit
