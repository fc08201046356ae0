import Memkit.Moves.MovedQueues
import Memkit.Sequences.DList

/-! # Moving a list and a vector

The classes `DList` and `Vector` of `containers/dlist.hpp` and `containers/vector.hpp`, as objects
over a memory. Their moves copy `core_` too; of a `DList` the source gives up `owns_pool_`, of a
`Vector` nothing. A vector may grow through the `arena_` member of another object, whose address its
grow allocator holds.

* **`DListObject.safeWhen_idle`, `VectorObject.safeWhen_idle`** — when the moves are safe.
* **`moved_from_inert`** — the same for the four classes that copy their core. -/

namespace Memkit

variable {w : ℕ} {V : Type*}

/-! ## The doubly linked list -/

/-- The nodes of all lists: their elements and links, and the number of requests made of the heap. -/
structure NodeMemory (V : Type*) extends ObjectMemory ℕ V where
  prev : ℕ → Option ℕ
  next : ℕ → Option ℕ

/-- The members of `DList`; `copies` counts the copies that its policy has made. -/
structure DListObject where
  /-- `head_`. -/
  head : Option ℕ
  /-- `tail_`. -/
  tail : Option ℕ
  /-- `free_list_`. -/
  freeList : Option ℕ
  /-- `size_`. -/
  size : ℕ
  copies : ℕ
  /-- `owns_pool_`. -/
  ownsPool : Bool

namespace DListObject

/-- `core_`, with the nodes. -/
def core (h : DListObject) (m : NodeMemory V) : DList V where
  head := h.head
  tail := h.tail
  prev := m.prev
  pool := ⟨h.freeList, m.next, m.requests⟩
  size := h.size
  cells := ⟨m.contents, h.copies, .empty _⟩

/-- The members and the memory after a call of `core_`. -/
def after (h : DListObject) (s : DList V) : DListObject × NodeMemory V :=
  (⟨s.head, s.tail, s.pool.freeList, s.size, s.cells.copies, h.ownsPool⟩,
    ⟨⟨s.cells.contents, s.pool.requests⟩, s.prev, s.pool.next⟩)

/-- A call of the class. -/
inductive Call (V : Type*)
  | list (call : DList.Call V)
  /-- `size`, `capacity`, `empty` and `full`. -/
  | sizes

/-- What a call answers. -/
inductive Reply (V : Type*)
  | answer (answer : Option (Answer V))
  | sizes (size : ℕ) (capacity : Option ℕ)
  deriving DecidableEq, Repr

/-- Dispatch a call. -/
def call (cfg : DListConfig V) (h : DListObject) (m : NodeMemory V) :
    Call V → Reply V × DListObject × NodeMemory V
  | .list c =>
    let (answer, s) := (h.core m).call cfg c
    (.answer answer, h.after s)
  | .sizes => (.sizes h.size (if cfg.source.fixedPool then some cfg.source.capacity else none), h, m)

/-- The memory after `clear`. -/
def clearedMemory (cfg : DListConfig V) (h : DListObject) (m : NodeMemory V) : NodeMemory V :=
  (h.call cfg m (.list .clear)).2.2

/-- The nodes that the loop of `clear` meets. -/
def clearNodes (cfg : DListConfig V) : ℕ → DList V → List ℕ
  | rounds, s =>
    match s.head with
    | none => []
    | some current =>
      match rounds with
      | 0 => []
      | rounds + 1 =>
        current :: clearNodes cfg rounds
          (((s.unlinkNode current).destroyNodeValue cfg current).releaseNode cfg current)

/-- What `~DList` releases: the elements, their nodes if these are of the heap, and the pool, which is
the block `none`. -/
def released (cfg : DListConfig V) (h : DListObject) (m : NodeMemory V) :
    List (Released ℕ (Option ℕ)) :=
  ((clearNodes cfg ((h.core m).rounds cfg) (h.core m)).flatMap fun node =>
    (if cfg.needsDestroy then [.element node] else []) ++
      if cfg.source.fixedPool then [] else [.block (some node)]) ++
  if h.ownsPool ∧ cfg.source.fixedPool then [.block none] else []

/-- `DList` as a class of objects. The members other than `owns_pool_` are left in the source. -/
def objectClass (cfg : DListConfig V) :
    ObjectClass DListObject (NodeMemory V) Unit (Call V) (Reply V) (Released ℕ (Option ℕ)) where
  call _ _ h m c := h.call cfg m c
  shown _ := ()
  destroy h m := h.clearedMemory cfg m
  released h m := h.released cfg m
  left h := { h with ownsPool := false }

/-- The list is over a pool that has no free node. -/
def Exhausted (cfg : DListConfig V) (h : DListObject) : Prop :=
  cfg.source.fixedPool = true ∧ h.freeList = none

/-- A call of the source that touches no node: nothing is inserted and nothing is removed. -/
def IdleCall (cfg : DListConfig V) (h : DListObject) (m : NodeMemory V) : Call V → Prop
  | .list (.pushFront _) => h.Exhausted cfg
  | .list (.pushBack _) => h.Exhausted cfg
  | .list (.insertAt index value) => value = none ∨ h.size < index ∨ h.Exhausted cfg
  | .list (.popFront _) => h.size = 0
  | .list (.popBack _) => h.size = 0
  | .list (.removeAt index _) => h.size ≤ index
  | .list (.removeFirst pred _) =>
    ∀ index, findLoop pred m.contents m.next ((h.core m).rounds cfg) 0 h.head ≠ some (some index)
  | .list .clear => h.head = none
  | _ => True

/-- The calls on the source, its destruction included, touch no node as long as it points to the nodes
of the destination. -/
def Idle (cfg : DListConfig V)
    (s : Twin DListObject (NodeMemory V) Unit (Released ℕ (Option ℕ))) :
    TwinCall (Call V) Unit → Prop
  | .source c => ∀ h, s.source = .sharing h → h.IdleCall cfg s.memory c
  | .destroy _ => ∀ h, s.source = .sharing h → h.head = none
  | _ => True

variable {cfg : DListConfig V} {h : DListObject} {m : NodeMemory V}

/-- Without a free node, nothing is inserted. -/
theorem insertLinked_exhausted (hpool : h.Exhausted cfg) (value : V)
    (link : DList V → ℕ → DList V) :
    (h.core m).insertLinked cfg value link = (.full, h.core m) := by
  have hacquire : (h.core m).pool.acquire cfg.source = (.error .full, (h.core m).pool) := by
    have hfree : (h.core m).pool.freeList = none := hpool.2
    unfold NodePool.acquire
    rw [if_pos hpool.1, hfree]
  unfold DList.insertLinked DList.makeNode DList.acquireNode
  rw [hacquire]

theorem insertAt_idle {index : ℕ} {value : Option V}
    (hidle : value = none ∨ h.size < index ∨ h.Exhausted cfg) :
    ((h.core m).insertAt cfg index value).2 = h.core m := by
  unfold DList.insertAt DList.insertFront DList.insertBack
  cases value with
  | none => rfl
  | some value =>
    have hidle := hidle.resolve_left nofun
    by_cases hlarge : (h.core m).size < index
    · simp only [if_pos hlarge]
    · have hpool := hidle.resolve_left hlarge
      simp only [if_neg hlarge, insertLinked_exhausted hpool]
      split
      · rfl
      split
      · rfl
      split
      · rfl
      · rfl

/-- A search that finds nothing removes nothing. -/
theorem removeFirst_idle {pred : V → Bool} {out : Option V}
    (hidle : ∀ index,
      findLoop pred m.contents m.next ((h.core m).rounds cfg) 0 h.head ≠ some (some index)) :
    (h.core m).removeFirst cfg pred out =
      if findLoop pred m.contents m.next ((h.core m).rounds cfg) 0 h.head = none then none
      else some ((.notFound, out), h.core m) := by
  have hloop : findLoop pred (h.core m).cells.contents (h.core m).next ((h.core m).rounds cfg) 0
      (h.core m).head = findLoop pred m.contents m.next ((h.core m).rounds cfg) 0 h.head := rfl
  unfold DList.removeFirst
  rw [hloop]
  cases hfind : findLoop pred m.contents m.next ((h.core m).rounds cfg) 0 h.head with
  | none => rfl
  | some index =>
    cases index with
    | none => rfl
    | some index => exact absurd hfind (hidle index)

theorem clear_idle (hhead : h.head = none) :
    ((h.core m).call cfg .clear).2 = { h.core m with head := none, tail := none, size := 0 } := by
  have hcore : (h.core m).head = none := hhead
  have hloop : ∀ rounds, DList.clearLoop cfg rounds (h.core m) = some (h.core m) := by
    intro rounds
    unfold DList.clearLoop
    rw [hcore]
  have hclear : (h.core m).clear cfg = some { h.core m with head := none, tail := none, size := 0 } := by
    unfold DList.clear
    rw [hloop]
    rfl
  simp only [DList.call, hclear]

/-- **An idle call** leaves the nodes as they are. -/
theorem call_idle {c : Call V} (hidle : h.IdleCall cfg m c) : (h.call cfg m c).2.2 = m := by
  cases c with
  | sizes => rfl
  | list c =>
    -- a core that is unchanged writes back the nodes it was given
    have hsame : ∀ {s : DList V}, s = h.core m → (h.after s).2 = m := by
      rintro _ rfl
      rfl
    cases c with
    | pushFront value =>
      refine hsame ?_
      show ((h.core m).insertLinked cfg value DList.linkFront).2 = h.core m
      rw [insertLinked_exhausted hidle]
    | pushBack value =>
      refine hsame ?_
      show ((h.core m).insertLinked cfg value DList.linkBack).2 = h.core m
      rw [insertLinked_exhausted hidle]
    | insertAt index value => exact hsame (insertAt_idle hidle)
    | popFront out =>
      have hempty : (h.core m).popFront cfg out = some ((.empty, out), h.core m) := if_pos hidle
      refine hsame ?_
      show (answerRemoval (h.core m) ((h.core m).popFront cfg out)).2 = h.core m
      rw [hempty]
      rfl
    | popBack out =>
      have hempty : (h.core m).popBack cfg out = some ((.empty, out), h.core m) := if_pos hidle
      refine hsame ?_
      show (answerRemoval (h.core m) ((h.core m).popBack cfg out)).2 = h.core m
      rw [hempty]
      rfl
    | removeAt index out =>
      have hlarge : (h.core m).removeAt cfg index out = some ((.invalid, out), h.core m) :=
        if_pos hidle
      refine hsame ?_
      show (answerRemoval (h.core m) ((h.core m).removeAt cfg index out)).2 = h.core m
      rw [hlarge]
      rfl
    | removeFirst pred out =>
      refine hsame ?_
      show (answerRemoval (h.core m) ((h.core m).removeFirst cfg pred out)).2 = h.core m
      rw [removeFirst_idle hidle]
      split
      · rfl
      · rfl
    | clear =>
      show (h.after ((h.core m).call cfg .clear).2).2 = m
      rw [clear_idle hidle]
      rfl
    | peekFront out => rfl
    | peekBack out => rfl
    | peekAt index out => rfl
    | forEach visit => rfl
    | forEachReverse visit => rfl

theorem ownsPool_call (c : Call V) : (h.call cfg m c).2.1.ownsPool = h.ownsPool := by
  cases c <;> rfl

/-- Idle calls on the source of a move are harmless; it owns nothing. -/
theorem harmless (cfg : DListConfig V) :
    Twin.Harmless (objectClass cfg) (fun _ => False) (fun h => h.ownsPool = false) (Idle cfg) where
  blind _ _ _ _ _ _ := rfl
  stays_blind _ h _ _ _ := h
  call s h c hsource hown hidle :=
    ⟨call_idle (hidle h hsource), (ownsPool_call c).trans hown, rfl⟩
  destroy s h e hsource hown hidle := by
    have hhead : h.head = none := hidle h hsource
    refine ⟨call_idle (c := .list .clear) hhead, ?_⟩
    have hnodes : ∀ rounds, clearNodes cfg rounds (h.core s.memory) = [] := by
      intro rounds
      unfold clearNodes
      show (match h.head with
        | none => []
        | some current => _) = _
      rw [hhead]
    show h.released cfg s.memory = []
    unfold released
    rw [hnodes]
    simp [hown]
  found _ _ _ hsees := hsees.elim

/-- **A moved-from list is inert if it is left alone**: after a move, the destination is undisturbed
in every run in which the source inserts and removes nothing while it still points to the nodes of
the destination. -/
theorem safeWhen_idle (cfg : DListConfig V) : Twin.SafeWhen (objectClass cfg) (Idle cfg) :=
  (harmless cfg).safeWhen fun _ => rfl

end DListObject

/-! ## The vector -/

namespace VectorObject

/-- A call of the class on an object that is set up. -/
inductive Use (w : ℕ) (V : Type*)
  | pushBack (elem : V)
  | popBack (out : Option V)
  | reserve (minCapacity : BitVec w)
  | clear
  /-- The elements of `elements`. -/
  | elements
  /-- `at`, and the element there. -/
  | elementAt (index : BitVec w)
  /-- `size`, `capacity` and `empty`. -/
  | sizes

/-- What a call answers. -/
inductive Shown (w : ℕ) (V : Type*)
  | answer (answer : Answer V)
  | elements (elems : List V)
  | element (elem : Option V)
  | sizes (size capacity : BitVec w)
  deriving DecidableEq, Repr

/-- The policy of `Vector` is `typed_element_policy`. -/
def typed (cfg : VectorConfig w V) : VectorConfig w V := { cfg with typed := true }

/-- Dispatch a call of the object at the address `self`. -/
def use (cfg : VectorConfig w V) (self : ℕ) (others : ℕ → Option ℕ) (v : VectorObject w)
    (m : VectorMemory V) : Use w V → Shown w V × VectorObject w × VectorMemory V
  | .pushBack elem =>
    let (answer, next) := call cfg self others (v, m) (.pushBack elem)
    (.answer answer, next)
  | .popBack out =>
    let (answer, next) := call cfg self others (v, m) (.popBack out)
    (.answer answer, next)
  | .reserve minCapacity =>
    let (answer, next) := call cfg self others (v, m) (.reserve minCapacity)
    (.answer answer, next)
  | .clear =>
    let (answer, next) := call cfg self others (v, m) .clear
    (.answer answer, next)
  | .elements => (.elements (v.core.elements m), v, m)
  | .elementAt index =>
    (.element (if index < v.core.size then some (m.cells.contents (v.core.slotAt index.toNat))
      else none), v, m)
  | .sizes => (.sizes v.core.size v.core.capacity, v, m)

/-- What `~Vector` releases: it clears the vector. -/
def released (cfg : VectorConfig w V) (v : VectorObject w) : List (Released (BlockPtr × ℕ) BlockPtr) :=
  if cfg.needsDestroy then (List.range v.core.size.toNat).map fun i => .element (v.core.slotAt i)
  else []

/-- `Vector` as a class of objects, of which two are at the addresses `source` and `dest`; at an
address, the arena is found that the `arena_` there is bound to. All members are left in the source of
a move. -/
def objectClass (cfg : VectorConfig w V) (source dest : ℕ) (others : ℕ → Option ℕ) :
    ObjectClass (VectorObject w) (VectorMemory V) (Option ℕ) (Use w V) (Shown w V)
      (Released (BlockPtr × ℕ) BlockPtr) where
  call side found v m c :=
    v.use (typed cfg) (side.pick source dest)
      (Function.update others (side.pick dest source) found) m c
  shown v := v.arena
  destroy v m := (v.clear (typed cfg) m).2
  released v _ := v.released cfg
  left v := v

/-- There is no element, or nothing is done to destroy one. -/
def NoDestroy (cfg : VectorConfig w V) (v : VectorObject w) : Prop :=
  v.core.size = 0 ∨ cfg.needsDestroy = false

/-- The vector does not grow: its flags say so, or there is nothing to allocate from. -/
def Fixed (cfg : VectorConfig w V) (v : VectorObject w) : Prop :=
  v.core.growable = false ∨
    cfg.allowHeap = false ∧ v.core.growAlloc = none ∧ v.arena = none

/-- A call of the source that does not touch the elements or the storage: nothing is pushed, no
element is destroyed, and the storage does not grow. -/
def IdleUse (cfg : VectorConfig w V) (v : VectorObject w) : Use w V → Prop
  | .pushBack _ => v.core.size = v.core.capacity ∧ v.Fixed cfg
  | .popBack _ => v.NoDestroy cfg
  | .reserve minCapacity => minCapacity ≤ v.core.capacity ∨ v.Fixed cfg
  | .clear => v.NoDestroy cfg
  | _ => True

/-- The calls on the source, its destruction included, do not touch the elements or the storage as
long as it points to the storage of the destination; and what is found at its address stays the same
as long as the destination grows through it. -/
def Idle (cfg : VectorConfig w V) (source dest : ℕ) (others : ℕ → Option ℕ)
    (s : Twin (VectorObject w) (VectorMemory V) (Option ℕ) (Released (BlockPtr × ℕ) BlockPtr)) :
    TwinCall (Use w V) (Option ℕ) → Prop
  | .source c => ∀ v, s.source = .sharing v → v.IdleUse cfg c
  | .destroy found =>
    (∀ v, s.source = .sharing v → v.NoDestroy cfg) ∧
      (s.dest.core.growAlloc = some source → found = s.atSource (objectClass cfg source dest others))
  | .renew found =>
    s.dest.core.growAlloc = some source → found = s.atSource (objectClass cfg source dest others)
  | .dest _ => True

variable {cfg : VectorConfig w V} {f g : ℕ → Option ℕ}

/-! ### Growing through an arena -/

/-- The two bindings agree at the context of the grow allocator. -/
def SameArena (f g : ℕ → Option ℕ) (s : VectorCore w) : Prop :=
  ∀ ctx, s.growAlloc = some ctx → f ctx = g ctx

theorem grow_sameArena (cfg : VectorConfig w V) {s : VectorCore w} (hsame : SameArena f g s)
    (m : VectorMemory V) (minCapacity : BitVec w) :
    s.grow cfg f m minCapacity = s.grow cfg g m minCapacity := by
  have hobtain : ∀ bytes, VectorCore.obtain cfg f s m bytes = VectorCore.obtain cfg g s m bytes := by
    intro bytes
    unfold VectorCore.obtain
    cases hctx : s.growAlloc with
    | none => rfl
    | some ctx => simp only [hsame ctx hctx]
  unfold VectorCore.grow VectorCore.reallocate
  simp only [hobtain]

theorem pushBack_sameArena (cfg : VectorConfig w V) {s : VectorCore w} (hsame : SameArena f g s)
    (m : VectorMemory V) (elem : Option V) :
    s.pushBack cfg f m elem = s.pushBack cfg g m elem := by
  unfold VectorCore.pushBack
  simp only [grow_sameArena cfg hsame]

theorem reserve_sameArena (cfg : VectorConfig w V) {s : VectorCore w} (hsame : SameArena f g s)
    (m : VectorMemory V) (minCapacity : BitVec w) :
    s.reserve cfg f m minCapacity = s.reserve cfg g m minCapacity := by
  unfold VectorCore.reserve
  simp only [grow_sameArena cfg hsame]

/-- The growth of the core leaves its grow allocator. -/
theorem growAlloc_grow (cfg : VectorConfig w V) (f : ℕ → Option ℕ) (s : VectorCore w)
    (m : VectorMemory V) (minCapacity : BitVec w) :
    (s.grow cfg f m minCapacity).2.1.growAlloc = s.growAlloc := by
  have hadopt : ∀ (kind : StorageKind) (m : VectorMemory V) (newPtr : BlockPtr)
      (newCapacity : BitVec w), (VectorCore.adopt cfg { s with storageKind := kind } m newPtr
        newCapacity).2.1.growAlloc = s.growAlloc := by
    intro kind m newPtr newCapacity
    unfold VectorCore.adopt
    dsimp only
    split_ifs <;> rfl
  have hheap : ∀ newCapacity, (s.reallocHeap cfg m newCapacity).2.1.growAlloc = s.growAlloc := by
    intro newCapacity
    unfold VectorCore.reallocHeap
    dsimp only
    split_ifs <;> rfl
  have hrealloc : ∀ newCapacity,
      (s.reallocate cfg f m newCapacity).2.1.growAlloc = s.growAlloc := by
    intro newCapacity
    unfold VectorCore.reallocate
    by_cases hshort : newCapacity < s.size
    · rw [if_pos hshort]
    rw [if_neg hshort]
    by_cases hkind : (cfg.allowHeap && s.storageKind.heap) = true
    · rw [if_pos hkind]
      exact hheap newCapacity
    rw [if_neg hkind]
    split
    · rfl
    · exact hadopt _ _ _ _
  unfold VectorCore.grow
  dsimp only
  split_ifs
  · rfl
  · rfl
  · exact hrealloc _

/-- A call rebinds the grow allocator to the object itself, or leaves it. -/
theorem growAlloc_use (cfg : VectorConfig w V) (self : ℕ) (others : ℕ → Option ℕ)
    (v : VectorObject w) (m : VectorMemory V) (c : Use w V) :
    (v.use cfg self others m c).2.1.core.growAlloc = v.core.growAlloc ∨
      (v.use cfg self others m c).2.1.core.growAlloc = some self := by
  cases c with
  | pushBack elem =>
    refine .inl ?_
    have hgrow := growAlloc_grow cfg (v.arenaAt self others) v.core m (v.core.size + 1)
    show ((v.core.pushBack cfg (v.arenaAt self others) m (some elem)).2.1).growAlloc = _
    unfold VectorCore.pushBack
    by_cases hfull : v.core.size = v.core.capacity
    · simp only [if_pos hfull]
      generalize v.core.grow cfg (v.arenaAt self others) m (v.core.size + 1) = r at hgrow ⊢
      split_ifs <;> exact hgrow
    · simp only [if_neg hfull]
      split_ifs <;> rfl
  | popBack out =>
    refine .inl ?_
    show ((v.core.popBack cfg m out).2.1).growAlloc = _
    unfold VectorCore.popBack
    cases out with
    | none => split_ifs <;> rfl
    | some out =>
      dsimp only
      split_ifs <;> rfl
  | reserve minCapacity =>
    -- `reserve` rebinds before it grows; the growth keeps the binding
    have hreserve : ∀ s : VectorCore w,
        (s.reserve cfg (v.arenaAt self others) m minCapacity).2.1.growAlloc = s.growAlloc := by
      intro s
      unfold VectorCore.reserve
      split_ifs
      · rfl
      · rfl
      · exact growAlloc_grow _ _ _ _ _
    have hbind : (v.bindGrowAlloc self).core.growAlloc = v.core.growAlloc ∨
        (v.bindGrowAlloc self).core.growAlloc = some self := by
      unfold bindGrowAlloc
      split_ifs
      · exact .inr rfl
      · exact .inl rfl
    show ((v.bindGrowAlloc self).core.reserve cfg _ m minCapacity).2.1.growAlloc = _ ∨
      ((v.bindGrowAlloc self).core.reserve cfg _ m minCapacity).2.1.growAlloc = _
    rw [hreserve]
    exact hbind
  | clear =>
    refine .inl ?_
    show ((v.core.clear cfg m).1).growAlloc = _
    unfold VectorCore.clear
    split_ifs <;> rfl
  | elements => exact .inl rfl
  | elementAt index => exact .inl rfl
  | sizes => exact .inl rfl

/-! ### Idle calls -/

variable {v : VectorObject w} {m : VectorMemory V}

/-- A vector that does not grow refuses to. -/
theorem grow_fixed (f : ℕ → Option ℕ) (hfixed : v.Fixed cfg) (minCapacity : BitVec w) :
    ∃ st, st ≠ .ok ∧ v.core.grow cfg f m minCapacity = (st, v.core, m) := by
  unfold VectorCore.grow
  by_cases hflags : v.core.growable = false
  · exact ⟨.full, by decide, if_pos hflags⟩
  obtain ⟨hheap, halloc, -⟩ := hfixed.resolve_left hflags
  rw [if_neg hflags]
  by_cases hover : growCapacity v.core.capacity minCapacity < minCapacity
  · exact ⟨.oom, by decide, if_pos hover⟩
  simp only [if_neg hover]
  unfold VectorCore.reallocate
  by_cases hshort : growCapacity v.core.capacity minCapacity < v.core.size
  · exact ⟨.invalid, by decide, if_pos hshort⟩
  · refine ⟨.unsupported, by decide, ?_⟩
    rw [if_neg hshort, if_neg (by rw [hheap]; nofun)]
    unfold VectorCore.obtain
    rw [halloc, hheap]
    rfl

/-- What a call that does not touch the elements or the storage leaves: the memory, and the binding of
`arena_`. -/
structure Kept (v : VectorObject w) (m : VectorMemory V) (r : VectorObject w × VectorMemory V) :
    Prop where
  memory : r.2 = m
  arena : r.1.arena = v.arena

theorem kept_clear (hno : v.NoDestroy cfg) : Kept v m (v.clear (typed cfg) m) := by
  refine ⟨?_, rfl⟩
  show (v.core.clear (typed cfg) m).2 = m
  unfold VectorCore.clear VectorCore.destroySlot
  by_cases hempty : v.core.size = 0
  · rw [if_pos hempty]
  · have hneeds : (typed cfg).needsDestroy = false := hno.resolve_left hempty
    rw [if_neg hempty]
    simp only [hneeds, Bool.false_eq_true, if_false, List.foldl_fixed]

theorem kept_popBack (hno : v.NoDestroy cfg) (out : Option V) :
    Kept v m (v.popBack (typed cfg) m out).2 := by
  refine ⟨?_, rfl⟩
  show (v.core.popBack (typed cfg) m out).2.2 = m
  unfold VectorCore.popBack VectorCore.destroySlot
  by_cases hempty : v.core.size = 0
  · rw [if_pos hempty]
  · have hneeds : (typed cfg).needsDestroy = false := hno.resolve_left hempty
    have htyped : (typed cfg).typed = true := rfl
    rw [if_neg hempty]
    cases out with
    | none => simp only [hneeds, Bool.false_eq_true, if_false]
    | some out => simp only [htyped, hneeds, Bool.false_eq_true, if_true, if_false]

theorem kept_pushBack (f : ℕ → Option ℕ) (elem : V)
    (hidle : v.core.size = v.core.capacity ∧ v.Fixed cfg) :
    Kept v m (v.pushBack (typed cfg) f m elem).2 := by
  have hfixed : v.Fixed (typed cfg) := hidle.2
  obtain ⟨st, hst, hgrow⟩ := grow_fixed (m := m) f hfixed (v.core.size + 1)
  have hpush : v.core.pushBack (typed cfg) f m (some elem) = (st, v.core, m) := by
    unfold VectorCore.pushBack
    simp only [if_pos hidle.1, hgrow, if_pos hst]
  refine ⟨?_, rfl⟩
  show (v.core.pushBack (typed cfg) f m (some elem)).2.2 = m
  rw [hpush]

theorem kept_reserve (self : ℕ) (f : ℕ → Option ℕ) {minCapacity : BitVec w}
    (hidle : minCapacity ≤ v.core.capacity ∨ v.Fixed cfg) :
    Kept v m (v.reserve (typed cfg) self f m minCapacity).2 := by
  have hbind : (v.bindGrowAlloc self).core.capacity = v.core.capacity ∧
      (v.bindGrowAlloc self).core.growable = v.core.growable ∧
      (v.bindGrowAlloc self).arena = v.arena := by
    unfold bindGrowAlloc
    split_ifs <;> exact ⟨rfl, rfl, rfl⟩
  obtain ⟨hcapacity, hgrowable, harena⟩ := hbind
  refine ⟨?_, harena⟩
  show ((v.bindGrowAlloc self).core.reserve (typed cfg) f m minCapacity).2.2 = m
  unfold VectorCore.reserve
  by_cases henough : minCapacity ≤ v.core.capacity
  · rw [if_pos (by rw [hcapacity]; exact henough)]
  rw [if_neg (by rw [hcapacity]; exact henough), hgrowable]
  by_cases hflags : v.core.growable = false
  · rw [if_pos hflags]
  · have hfixed : v.Fixed (typed cfg) := hidle.resolve_left henough
    obtain ⟨-, -, hunbound⟩ := hfixed.resolve_left hflags
    have hsame : v.bindGrowAlloc self = v := if_neg (by rw [hunbound]; nofun)
    obtain ⟨st, -, hgrow⟩ := grow_fixed (m := m) f hfixed minCapacity
    rw [if_neg hflags, hsame, hgrow]

/-- **An idle call** leaves the memory and the binding as they are. -/
theorem kept_use (self : ℕ) (others : ℕ → Option ℕ) {c : Use w V} (hidle : v.IdleUse cfg c) :
    Kept v m (v.use (typed cfg) self others m c).2 := by
  cases c with
  | pushBack elem => exact kept_pushBack _ elem hidle
  | popBack out => exact kept_popBack hidle out
  | reserve minCapacity => exact kept_reserve self _ hidle
  | clear => exact kept_clear hidle
  | elements => exact ⟨rfl, rfl⟩
  | elementAt index => exact ⟨rfl, rfl⟩
  | sizes => exact ⟨rfl, rfl⟩

/-- A vector that does not grow through the address `source` does not look there. -/
theorem use_blind (cfg : VectorConfig w V) {source dest : ℕ} (others : ℕ → Option ℕ)
    (hblind : ¬ (v.core.growAlloc = some source ∧ source ≠ dest)) (found found' : Option ℕ)
    (c : Use w V) :
    v.use cfg dest (Function.update others source found) m c =
      v.use cfg dest (Function.update others source found') m c := by
  -- the bindings differ at the source only, and there not if that is the vector itself
  have hagree : ∀ ctx, ctx ≠ source ∨ source = dest →
      v.arenaAt dest (Function.update others source found) ctx =
        v.arenaAt dest (Function.update others source found') ctx := by
    intro ctx hctx
    unfold arenaAt
    by_cases hself : ctx = dest
    · rw [hself, Function.update_self, Function.update_self]
    · have hne : ctx ≠ source := hctx.elim id fun h => h ▸ hself
      rw [Function.update_of_ne hself, Function.update_of_ne hself, Function.update_of_ne hne,
        Function.update_of_ne hne]
  have hsame : SameArena (v.arenaAt dest (Function.update others source found))
      (v.arenaAt dest (Function.update others source found')) v.core := by
    intro ctx hctx
    refine hagree ctx ?_
    by_contra hnot
    simp only [not_or, not_not] at hnot
    exact hblind ⟨hnot.1 ▸ hctx, hnot.2⟩
  cases c with
  | pushBack elem =>
    have hpush := pushBack_sameArena cfg hsame m (some elem)
    simp only [use, call, pushBack, hpush]
  | reserve minCapacity =>
    have hbound : SameArena (v.arenaAt dest (Function.update others source found))
        (v.arenaAt dest (Function.update others source found')) (v.bindGrowAlloc dest).core := by
      unfold bindGrowAlloc
      split_ifs
      · rintro _ ⟨⟩
        refine hagree dest ?_
        by_cases heq : source = dest
        · exact .inr heq
        · exact .inl fun h => heq h.symm
      · exact hsame
    have hreserve := reserve_sameArena cfg hbound m minCapacity
    simp only [use, call, reserve, hreserve]
  | popBack out => rfl
  | clear => rfl
  | elements => rfl
  | elementAt index => rfl
  | sizes => rfl

/-- Idle calls on the source of a move are harmless. -/
theorem harmless (cfg : VectorConfig w V) (source dest : ℕ) (others : ℕ → Option ℕ) :
    Twin.Harmless (objectClass cfg source dest others)
      (fun v => v.core.growAlloc = some source ∧ source ≠ dest) (fun _ => True)
      (Idle cfg source dest others) where
  blind d hblind found found' m c := use_blind (typed cfg) others hblind found found' c
  stays_blind d hblind found m c := by
    rintro ⟨hsees, hne⟩
    rcases growAlloc_use (typed cfg) dest (Function.update others source found) d m c with
      hkept | hself
    · exact hblind ⟨hkept ▸ hsees, hne⟩
    · exact hne (Option.some.inj (hsees.symm.trans hself))
  call s v c hsource _ hidle :=
    have hkept := kept_use source (Function.update others dest s.dest.arena) (hidle v hsource)
    ⟨hkept.memory, trivial, hkept.arena⟩
  destroy s v found hsource _ hidle := by
    have hno := hidle.1 v hsource
    refine ⟨(kept_clear hno).memory, ?_⟩
    show v.released cfg = []
    unfold released
    rcases hno with hsize | hno
    · simp [hsize]
    · simp [hno]
  found s found hidle hsees := by
    rcases hidle with hidle | hidle
    · exact hidle.2 hsees.1
    · exact hidle hsees.1

/-- **A moved-from vector is inert if it is left alone**: after a move, the destination is undisturbed
in every run in which the source pushes nothing into the storage it still points to, destroys no
element there and does not grow, and the binding of its `arena_` stays the same as long as the
destination grows through it. -/
theorem safeWhen_idle (cfg : VectorConfig w V) (source dest : ℕ) (others : ℕ → Option ℕ) :
    Twin.SafeWhen (objectClass cfg source dest others) (Idle cfg source dest others) :=
  (harmless cfg source dest others).safeWhen fun _ => trivial

end VectorObject

end Memkit
