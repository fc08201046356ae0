import Memkit.Sequences.VectorCore

/-! # The blocks of a vector

When a vector gives back to the heap exactly what it obtained from it.

* **`TakesNoBlock`** — a call does not grow the vector into a block of the heap.
* **`settled_iff`** — the destructor leaves the heap in order after exactly the runs all of whose
  calls are so. The first growth into a block of the heap sets the storage kind before it is tested,
  so it frees the storage that it grows away from; and no destructor frees a block.
* **`frees_given_block`** — a vector that grows away from an array of its caller. -/

namespace Memkit

namespace VectorObject

open Ledger

variable {w : ℕ} {V : Type*} {cfg : VectorConfig w V} {addr : ℕ} {others : ℕ → Option ℕ}

/-- The capacity that a call asks `grow` for, of a growable vector. -/
def growsTo (v : VectorObject w) : Call w V → Option (BitVec w)
  | .pushBack _ =>
    if v.core.growable ∧ v.core.size = v.core.capacity then some (v.core.size + 1) else none
  | .reserve minCapacity =>
    if v.core.growable ∧ v.core.capacity < minCapacity then some minCapacity else none
  | _ => none

/-- The bytes that `reallocate` asks for. -/
def growthBytes (cfg : VectorConfig w V) (v : VectorObject w) (minCapacity : BitVec w) : BitVec w :=
  growCapacity v.core.capacity minCapacity * cfg.elemSize

/-- No arena serves the growth, and the heap grants it. -/
def FromHeap (cfg : VectorConfig w V) (s : VectorObject w × VectorMemory V)
    (minCapacity : BitVec w) : Prop :=
  s.1.arena = none ∧ cfg.allowHeap = true ∧
    cfg.grants s.2.requests (growthBytes cfg s.1 minCapacity) = true

/-- The call does not grow the vector into a block of the heap. -/
def TakesNoBlock (cfg : VectorConfig w V) (s : VectorObject w × VectorMemory V)
    (c : Call w V) : Prop :=
  ∀ minCapacity ∈ s.1.growsTo c, ¬ FromHeap cfg s minCapacity

instance (s : VectorObject w × VectorMemory V) (minCapacity : BitVec w) :
    Decidable (FromHeap cfg s minCapacity) :=
  inferInstanceAs (Decidable (_ ∧ _ ∧ _))

instance (s : VectorObject w × VectorMemory V) (c : Call w V) :
    Decidable (TakesNoBlock cfg s c) :=
  match h : s.1.growsTo c with
  | none => isTrue (by simp [TakesNoBlock, h])
  | some minCapacity => decidable_of_iff (¬ FromHeap cfg s minCapacity) (by simp [TakesNoBlock, h])

/-! ## A fault of the heap stays -/

section Faults

variable {s : VectorCore w} {m : VectorMemory V} {arenaAt : ℕ → Option ℕ}

theorem malloc_fault (h : m.heap.fault = true) (bytes : BitVec w) :
    (m.malloc cfg bytes).2.heap.fault = true := by
  unfold VectorMemory.malloc
  split
  · exact construct_fault h _ _
  · exact h

theorem realloc_fault (h : m.heap.fault = true) (ptr : BlockPtr) (bytes : BitVec w) :
    (m.realloc cfg ptr bytes).2.heap.fault = true := by
  unfold VectorMemory.realloc
  split
  · exact construct_fault (destroy_fault h _) _ _
  · exact access_fault h _

theorem reallocHeap_fault (h : m.heap.fault = true) (newCapacity : BitVec w) :
    (s.reallocHeap cfg m newCapacity).2.2.heap.fault = true := by
  unfold VectorCore.reallocHeap
  by_cases hnull : s.storage ≠ .null
  · simp only [if_pos hnull]
    split
    · exact realloc_fault h _ _
    · exact realloc_fault h _ _
  · simp only [if_neg hnull]
    split
    · exact malloc_fault h _
    · exact malloc_fault h _

theorem obtain_fault (h : m.heap.fault = true) (bytes : BitVec w) :
    (s.obtain cfg arenaAt m bytes).2.heap.fault = true := by
  unfold VectorCore.obtain
  split
  · split
    · exact h
    · exact h
  · split
    · dsimp only
      split
      · exact malloc_fault h _
      · exact malloc_fault h _
    · exact h

theorem adopt_fault (h : m.heap.fault = true) (newPtr : BlockPtr) (newCapacity : BitVec w) :
    (s.adopt cfg m newPtr newCapacity).2.2.heap.fault = true := by
  unfold VectorCore.adopt
  dsimp only
  split_ifs
  all_goals first
    | exact h
    | exact destroy_fault h _

theorem reallocate_fault (h : m.heap.fault = true) (newCapacity : BitVec w) :
    (s.reallocate cfg arenaAt m newCapacity).2.2.heap.fault = true := by
  unfold VectorCore.reallocate
  split
  · exact h
  split
  · exact reallocHeap_fault h _
  have hobtain : (s.obtain cfg arenaAt m (newCapacity * cfg.elemSize)).2.heap.fault = true :=
    obtain_fault h _
  split
  · next heq =>
    rw [heq] at hobtain
    exact hobtain
  · next heq =>
    rw [heq] at hobtain
    exact adopt_fault hobtain _ _

theorem grow_fault (h : m.heap.fault = true) (minCapacity : BitVec w) :
    (s.grow cfg arenaAt m minCapacity).2.2.heap.fault = true := by
  unfold VectorCore.grow
  split
  · exact h
  · dsimp only
    split
    · exact h
    · exact reallocate_fault h _

theorem pushBack_fault (h : m.heap.fault = true) (elem : Option V) :
    (s.pushBack cfg arenaAt m elem).2.2.heap.fault = true := by
  cases elem with
  | none => exact h
  | some elem =>
    -- the heap after the growth, if there is one
    obtain ⟨r, hr, hfault⟩ : ∃ r, (if s.size = s.capacity then s.grow cfg arenaAt m (s.size + 1)
        else (.ok, s, m)) = r ∧ r.2.2.heap.fault = true := by
      refine ⟨_, rfl, ?_⟩
      split
      · exact grow_fault h _
      · exact h
    unfold VectorCore.pushBack
    simp only [hr]
    split_ifs
    all_goals exact hfault

theorem reserve_fault (h : m.heap.fault = true) (minCapacity : BitVec w) :
    (s.reserve cfg arenaAt m minCapacity).2.2.heap.fault = true := by
  unfold VectorCore.reserve
  split_ifs
  · exact h
  · exact h
  · exact grow_fault h _

/-- `clear` and `pop_back` do not use the heap. -/
theorem clear_heap (cfg : VectorConfig w V) (s : VectorCore w) (m : VectorMemory V) :
    (s.clear cfg m).2.heap = m.heap := by
  unfold VectorCore.clear
  split <;> rfl

theorem popBack_heap (cfg : VectorConfig w V) (s : VectorCore w) (m : VectorMemory V)
    (out : Option V) : (s.popBack cfg m out).2.2.heap = m.heap := by
  unfold VectorCore.popBack
  cases out with
  | none =>
    dsimp only
    split <;> rfl
  | some out =>
    dsimp only
    split_ifs <;> rfl

end Faults

/-! ## Copies of a typed policy -/

section Typed

variable {s : VectorCore w} {m : VectorMemory V}

/-- The copies of a typed policy have no status. -/
theorem copyRange_typed (htyped : cfg.typed = true) (dst src : BlockPtr) (is : List ℕ)
    (cells : Cells (BlockPtr × ℕ) V) : (VectorCore.copyRange cfg dst src is cells).1 = .ok := by
  induction is generalizing cells with
  | nil => rfl
  | cons i is ih =>
    rw [VectorCore.copyRange, if_pos htyped]
    exact ih _

/-- A block that is adopted. -/
theorem adopt_typed (htyped : cfg.typed = true) (newPtr : BlockPtr) (newCapacity : BitVec w) :
    ∃ m', s.adopt cfg m newPtr newCapacity =
        (.ok, { s with storage := newPtr, capacity := newCapacity }, m') ∧
      m'.heap =
        if (cfg.allowHeap && s.storageKind.heap) ∧ s.storage ≠ .null ∧ newPtr ≠ s.storage then
          m.heap.destroy s.storage
        else m.heap := by
  unfold VectorCore.adopt
  dsimp only
  have hcopies : (if 0 < s.size ∧ s.storage ≠ .null ∧ newPtr ≠ s.storage then
      VectorCore.copyRange cfg newPtr s.storage (List.range s.size.toNat) m.cells
      else (.ok, m.cells)).1 = .ok := by
    split
    · exact copyRange_typed htyped _ _ _ _
    · rfl
  rw [if_neg (not_not.mpr hcopies)]
  refine ⟨_, rfl, ?_⟩
  split <;> rfl

end Typed

section Runs

variable {s : VectorObject w × VectorMemory V}

/-- `init_from_arena` does not use the heap. -/
theorem initFromArena_heap (cfg : VectorConfig w V) (addr : ℕ) (v : VectorObject w)
    (m : VectorMemory V) (arena : ℕ) (initialCapacity : BitVec w) (growable : Bool) :
    (v.initFromArena cfg addr m arena initialCapacity growable).2.2.heap = m.heap := by
  unfold initFromArena VectorMemory.allocate
  by_cases hzero : initialCapacity = 0
  · rw [if_pos hzero]
  · rw [if_neg hzero]
    cases cfg.arenaAllocate arena m.requests (initialCapacity * cfg.elemSize) with
    | error st => rfl
    | ok number =>
      simp only [Except.map]
      split <;> rfl

theorem call_fault (h : s.2.heap.fault = true) (c : Call w V) :
    (call cfg addr others s c).2.2.heap.fault = true := by
  cases c with
  | init => exact h
  | initSpan => exact h
  | initFromArena arena initialCapacity growable =>
    have hheap := initFromArena_heap cfg addr s.1 s.2 arena initialCapacity growable
    exact (congrArg Ledger.fault hheap).trans h
  | pushBack elem => exact pushBack_fault h (some elem)
  | popBack out => exact (congrArg Ledger.fault (popBack_heap cfg s.1.core s.2 out)).trans h
  | reserve minCapacity => exact reserve_fault h minCapacity
  | clear => exact (congrArg Ledger.fault (clear_heap cfg s.1.core s.2)).trans h

/-! ## Runs that take no block -/

/-- The vector has no block of the heap, and its storage kind does not say so. -/
structure Inv (addr : ℕ) (s : VectorObject w × VectorMemory V) : Prop where
  kind : s.1.core.storageKind.heap = false
  growAlloc : s.1.core.growAlloc = s.1.arena.map fun _ => addr
  heap : s.2.heap.Holds ∅
  storage : ∀ n, s.1.core.storage ≠ .heap n
  growable : s.1.core.growable = true → s.1.core.storage ≠ .null ∧ 0 < s.1.core.capacity.toNat
  size_le : s.1.core.size ≤ s.1.core.capacity

theorem inv_default (w : ℕ) (addr : ℕ) (memory : BlockPtr × ℕ → V) :
    Inv addr (VectorObject.default w, VectorMemory.start memory) where
  kind := rfl
  growAlloc := rfl
  heap := holds_empty
  storage := nofun
  growable := nofun
  size_le := BitVec.le_refl 0

variable {minCapacity : BitVec w}

/-- The context of the grow allocator is bound already. -/
theorem Inv.bindGrowAlloc (hinv : Inv addr s) : s.1.bindGrowAlloc addr = s.1 := by
  unfold VectorObject.bindGrowAlloc
  by_cases harena : s.1.arena.isSome = true
  · rw [if_pos harena]
    obtain ⟨arena, harena⟩ := Option.isSome_iff_exists.mp harena
    have halloc := hinv.growAlloc
    rw [harena, Option.map_some] at halloc
    rw [← halloc]
  · rw [if_neg harena]

/-- A growth reaches the allocators. -/
theorem Inv.grow_eq (hinv : Inv addr s) (hgrow : s.1.core.growable = true)
    (arenaAt : ℕ → Option ℕ) (minCapacity : BitVec w) :
    s.1.core.grow cfg arenaAt s.2 minCapacity =
      match s.1.core.obtain cfg arenaAt s.2 (growthBytes cfg s.1 minCapacity) with
      | (.error st, m) => (st, s.1.core, m)
      | (.ok (newPtr, kind), m) =>
        VectorCore.adopt cfg { s.1.core with storageKind := kind } m newPtr
          (growCapacity s.1.core.capacity minCapacity) := by
  have hpos := (hinv.growable hgrow).2
  have henough := BitVec.not_lt.mpr (le_growCapacity hpos minCapacity)
  have hsize := BitVec.not_lt.mpr
    (BitVec.le_trans hinv.size_le (self_le_growCapacity hpos minCapacity))
  have hkind : ¬ (cfg.allowHeap && s.1.core.storageKind.heap) = true := by
    rw [hinv.kind, Bool.and_false]
    exact Bool.false_ne_true
  rw [VectorCore.grow, if_neg (by rw [hgrow]; nofun)]
  dsimp only
  rw [if_neg henough, VectorCore.reallocate, if_neg hsize, if_neg hkind]
  rfl

/-- **The first growth into the heap** frees the storage that it grows away from. -/
theorem Inv.grow_fromHeap (others : ℕ → Option ℕ) (hinv : Inv addr s) (htyped : cfg.typed = true)
    (hgrow : s.1.core.growable = true) (hfrom : FromHeap cfg s minCapacity) :
    (s.1.core.grow cfg (s.1.arenaAt addr others) s.2 minCapacity).2.2.heap.fault = true := by
  obtain ⟨harena, hallow, hgrants⟩ := hfrom
  have halloc : s.1.core.growAlloc = none := by
    rw [hinv.growAlloc, harena, Option.map_none]
  have hnew : BlockPtr.heap s.2.requests ≠ s.1.core.storage := (hinv.storage _).symm
  have hmalloc : s.1.core.obtain cfg (s.1.arenaAt addr others) s.2
      (growthBytes cfg s.1 minCapacity) =
      (.ok (.heap s.2.requests, .ownsHeap),
        { s.2 with
          heap := s.2.heap.construct (.heap s.2.requests) true
          requests := s.2.requests + 1 }) := by
    simp only [VectorCore.obtain, halloc, hallow, VectorMemory.malloc, hgrants, if_true,
      reduceCtorEq, if_false]
  have hfault : ((s.2.heap.construct (.heap s.2.requests) true).destroy
      s.1.core.storage).fault = true := by
    refine (hinv.heap.construct (Set.notMem_empty _)).destroy_fault ?_
    rintro (heq | hmem)
    · exact hnew heq.symm
    · exact hmem
  have hcore := hinv.growable hgrow
  obtain ⟨m', hadopt, hheap⟩ := adopt_typed (s := { s.1.core with storageKind := .ownsHeap })
    (m := { s.2 with
      heap := s.2.heap.construct (.heap s.2.requests) true
      requests := s.2.requests + 1 }) htyped (.heap s.2.requests)
    (growCapacity s.1.core.capacity minCapacity)
  rw [if_pos ⟨by rw [hallow]; rfl, hcore.1, hnew⟩] at hheap
  rw [hinv.grow_eq hgrow, hmalloc]
  dsimp only
  rw [hadopt, hheap]
  exact hfault

/-- Another growth does not use the heap: it is refused, or served by an arena. -/
theorem Inv.grow_other (others : ℕ → Option ℕ) (hinv : Inv addr s) (htyped : cfg.typed = true)
    (hgrow : s.1.core.growable = true) (hother : ¬ FromHeap cfg s minCapacity) :
    ∃ st core m, s.1.core.grow cfg (s.1.arenaAt addr others) s.2 minCapacity = (st, core, m) ∧
      m.heap = s.2.heap ∧
      (st ≠ .ok ∧ core = s.1.core ∨
        st = .ok ∧ ∃ number, core = { s.1.core with
          storage := .arena number
          capacity := growCapacity s.1.core.capacity minCapacity }) := by
  rw [hinv.grow_eq hgrow]
  -- the block comes from the arena, or none comes at all: the heap stays as it is
  cases harena : s.1.arena with
  | none =>
    have halloc : s.1.core.growAlloc = none := by
      rw [hinv.growAlloc, harena, Option.map_none]
    by_cases hallow : cfg.allowHeap = true
    · have hrefused : cfg.grants s.2.requests (growthBytes cfg s.1 minCapacity) = false := by
        rw [← Bool.not_eq_true]
        exact fun hgrants => hother ⟨harena, hallow, hgrants⟩
      refine ⟨.oom, s.1.core, { s.2 with requests := s.2.requests + 1 }, ?_, rfl, .inl ⟨by rintro ⟨⟩, rfl⟩⟩
      simp only [VectorCore.obtain, halloc, hallow, VectorMemory.malloc, hrefused, if_true,
        Bool.false_eq_true, if_false]
    · refine ⟨.unsupported, s.1.core, s.2, ?_, rfl, .inl ⟨by rintro ⟨⟩, rfl⟩⟩
      simp only [VectorCore.obtain, halloc, if_neg hallow]
  | some arena =>
    have halloc : s.1.core.growAlloc = some addr := by
      rw [hinv.growAlloc, harena, Option.map_some]
    have hbound : s.1.arenaAt addr others addr = some arena := by
      rw [arenaAt, Function.update_self, harena]
    cases hanswer : cfg.arenaAllocate arena s.2.requests (growthBytes cfg s.1 minCapacity) with
    | error st =>
      have hobtain : s.1.core.obtain cfg (s.1.arenaAt addr others) s.2
          (growthBytes cfg s.1 minCapacity) =
          (.error st, { s.2 with requests := s.2.requests + 1 }) := by
        unfold VectorCore.obtain
        rw [halloc]
        simp only [hbound, VectorMemory.allocate, hanswer, Except.map]
      rw [hobtain]
      exact ⟨st, _, _, rfl, rfl, .inl ⟨cfg.arena_refuses _ _ _ _ hanswer, rfl⟩⟩
    | ok number =>
      have hobtain : s.1.core.obtain cfg (s.1.arenaAt addr others) s.2
          (growthBytes cfg s.1 minCapacity) =
          (.ok (.arena number, s.1.core.storageKind),
            { s.2 with requests := s.2.requests + 1 }) := by
        unfold VectorCore.obtain
        rw [halloc]
        simp only [hbound, VectorMemory.allocate, hanswer, Except.map]
      obtain ⟨m', hadopt, hheap⟩ := adopt_typed (s := s.1.core)
        (m := { s.2 with requests := s.2.requests + 1 }) htyped (.arena number)
        (growCapacity s.1.core.capacity minCapacity)
      rw [if_neg (by rw [hinv.kind, Bool.and_false]; rintro ⟨⟨⟩, -⟩)] at hheap
      rw [hobtain]
      exact ⟨.ok, _, m', hadopt, hheap, .inr ⟨rfl, number, rfl⟩⟩

/-! ## The calls -/

/-- What a push does after the growth, if there is one. -/
theorem pushBack_typed (htyped : cfg.typed = true) (core : VectorCore w) (m : VectorMemory V)
    (arenaAt : ℕ → Option ℕ) {r : Status × VectorCore w × VectorMemory V} (elem : V)
    (hr : (if core.size = core.capacity then core.grow cfg arenaAt m (core.size + 1)
      else (.ok, core, m)) = r) :
    ∃ m', m'.heap = r.2.2.heap ∧ core.pushBack cfg arenaAt m (some elem) =
      if r.1 ≠ .ok then r else (.ok, { r.2.1 with size := r.2.1.size + 1 }, m') := by
  refine ⟨{ r.2.2 with cells := r.2.2.cells.place (r.2.1.slotAt r.2.1.size.toNat) elem }, rfl, ?_⟩
  unfold VectorCore.pushBack VectorCore.construct
  simp only [hr, htyped, if_true, ne_eq, not_true, if_false]

/-- The vector after an arena has served a growth. -/
theorem Inv.grown (hinv : Inv addr s) (hgrow : s.1.core.growable = true) (number : ℕ)
    {m : VectorMemory V} (hheap : m.heap = s.2.heap) :
    Inv addr (⟨{ s.1.core with
      storage := .arena number
      capacity := growCapacity s.1.core.capacity minCapacity }, s.1.arena⟩, m) := by
  have hpos := (hinv.growable hgrow).2
  have hle := self_le_growCapacity hpos minCapacity
  refine ⟨hinv.kind, hinv.growAlloc, hheap ▸ hinv.heap, nofun, fun _ => ⟨nofun, ?_⟩,
    BitVec.le_trans hinv.size_le hle⟩
  exact hpos.trans_le hle

/-- Another heap with the same blocks. -/
theorem Inv.sameHeap (hinv : Inv addr s) {m : VectorMemory V} (hheap : m.heap = s.2.heap) :
    Inv addr (s.1, m) :=
  ⟨hinv.kind, hinv.growAlloc, hheap ▸ hinv.heap, hinv.storage, hinv.growable, hinv.size_le⟩

/-- Another size within the capacity. -/
theorem Inv.resize (hinv : Inv addr s) {size : BitVec w} (hsize : size ≤ s.1.core.capacity) :
    Inv addr (⟨{ s.1.core with size := size }, s.1.arena⟩, s.2) :=
  ⟨hinv.kind, hinv.growAlloc, hinv.heap, hinv.storage, hinv.growable, hsize⟩

/-- `init` is refused, or sets what it is given. -/
theorem init_cases (cfg : VectorConfig w V) (core : VectorCore w) (storage : BlockPtr)
    (capacity : BitVec w) (growable : Bool) :
    core.init cfg storage capacity growable = (.invalid, core) ∨
      storage ≠ .null ∧ 0 < capacity.toNat ∧
        core.init cfg storage capacity growable =
          (.ok, { core with
            storage := storage, capacity := capacity, size := 0, growable := growable }) := by
  unfold VectorCore.init
  by_cases hinvalid : storage = .null ∨ capacity = 0 ∨ cfg.elemSize = 0
  · exact .inl (if_pos hinvalid)
  · rw [if_neg hinvalid]
    simp only [not_or] at hinvalid
    refine .inr ⟨hinvalid.1, Nat.pos_of_ne_zero fun hzero => ?_, rfl⟩
    exact hinvalid.2.1 (BitVec.eq_of_toNat_eq hzero)

theorem zero_le_word (c : BitVec w) : 0 ≤ c := by
  rw [BitVec.le_def, show (0 : BitVec w).toNat = 0 from BitVec.toNat_zero]
  exact Nat.zero_le _

theorem Inv.init (hinv : Inv addr s) (storage : Option ℕ) (capacity : BitVec w)
    (growable : Bool) : Inv addr ((s.1.init cfg (givenPtr storage) capacity growable).2, s.2) := by
  unfold VectorObject.init
  rcases init_cases cfg s.1.core (givenPtr storage) capacity growable with
    hsame | ⟨hnull, hcapacity, hok⟩
  · rw [hsame]
    exact hinv
  · rw [hok]
    have hgiven : ∀ n, givenPtr storage ≠ .heap n := by cases storage <;> nofun
    exact ⟨hinv.kind, hinv.growAlloc, hinv.heap, hgiven, fun _ => ⟨hnull, hcapacity⟩,
      zero_le_word capacity⟩

theorem Inv.initFromArena (hinv : Inv addr s) (arena : ℕ) (initialCapacity : BitVec w)
    (growable : Bool) :
    Inv addr (s.1.initFromArena cfg addr s.2 arena initialCapacity growable).2 := by
  unfold VectorObject.initFromArena VectorMemory.allocate
  by_cases hzero : initialCapacity = 0
  · rw [if_pos hzero]
    exact hinv
  rw [if_neg hzero]
  cases cfg.arenaAllocate arena s.2.requests (initialCapacity * cfg.elemSize) with
  | error st => exact hinv.sameHeap rfl
  | ok number =>
    simp only [Except.map]
    rcases init_cases cfg s.1.core (.arena number) initialCapacity growable with
      hsame | ⟨hnull, hcapacity, hok⟩
    · rw [hsame]
      exact hinv.sameHeap rfl
    · rw [hok]
      exact ⟨rfl, rfl, hinv.heap, nofun, fun _ => ⟨hnull, hcapacity⟩, zero_le_word _⟩

theorem Inv.pushBack (hinv : Inv addr s) (htyped : cfg.typed = true) (elem : V)
    (hnone : TakesNoBlock cfg s (.pushBack elem)) :
    Inv addr (s.1.pushBack cfg (s.1.arenaAt addr others) s.2 elem).2 := by
  obtain ⟨m', hheap, hpush⟩ := pushBack_typed htyped s.1.core s.2
    (s.1.arenaAt addr others) elem rfl
  unfold VectorObject.pushBack
  rw [hpush]
  by_cases hfull : s.1.core.size = s.1.core.capacity
  · simp only [if_pos hfull] at hheap ⊢
    by_cases hgrow : s.1.core.growable = true
    · have hasks : s.1.growsTo (.pushBack elem) = some (s.1.core.size + 1) :=
        if_pos ⟨hgrow, hfull⟩
      obtain ⟨st, core, m, hgrown, hm, ⟨hst, rfl⟩ | ⟨rfl, number, rfl⟩⟩ :=
        hinv.grow_other others htyped hgrow (hnone _ hasks)
      · rw [hgrown]
        simp only [if_pos hst]
        exact hinv.sameHeap hm
      · rw [hgrown] at hheap ⊢
        simp only [ne_eq, not_true, if_false]
        have hroom := le_growCapacity (hinv.growable hgrow).2 (s.1.core.size + 1)
        exact (hinv.grown hgrow number (hheap.trans hm)).resize hroom
    · have hrefused : s.1.core.grow cfg (s.1.arenaAt addr others) s.2 (s.1.core.size + 1) =
          (.full, s.1.core, s.2) := if_pos (Bool.eq_false_iff.mpr hgrow)
      rw [hrefused]
      exact hinv
  · simp only [if_neg hfull, ne_eq, not_true, if_false] at hheap ⊢
    have hlt : s.1.core.size.toNat < s.1.core.capacity.toNat :=
      lt_of_le_of_ne hinv.size_le fun h => hfull (BitVec.eq_of_toNat_eq h)
    refine (hinv.sameHeap hheap).resize ?_
    rw [BitVec.le_def, WrapCounter.toNat_succ hlt]
    exact hlt

theorem Inv.popBack (hinv : Inv addr s) (htyped : cfg.typed = true) (out : Option V) :
    Inv addr (s.1.popBack cfg s.2 out).2 := by
  have hheap := popBack_heap cfg s.1.core s.2 out
  unfold VectorObject.popBack
  unfold VectorCore.popBack at hheap ⊢
  by_cases hempty : s.1.core.size = 0
  · rw [if_pos hempty]
    exact hinv
  · simp only [if_neg hempty, htyped, if_true] at hheap ⊢
    have hsize : s.1.core.size - 1 ≤ s.1.core.capacity := by
      have hle := hinv.size_le
      have hpred := WrapCounter.toNat_pred hempty
      rw [BitVec.le_def] at hle ⊢
      omega
    cases out with
    | none => exact (hinv.sameHeap hheap).resize hsize
    | some out => exact (hinv.sameHeap hheap).resize hsize

theorem Inv.reserve (hinv : Inv addr s) (htyped : cfg.typed = true) (minCapacity : BitVec w)
    (hnone : TakesNoBlock cfg s (.reserve minCapacity)) :
    Inv addr (s.1.reserve cfg addr (s.1.arenaAt addr others) s.2 minCapacity).2 := by
  unfold VectorObject.reserve
  rw [hinv.bindGrowAlloc]
  by_cases henough : minCapacity ≤ s.1.core.capacity
  · have hkept : s.1.core.reserve cfg (s.1.arenaAt addr others) s.2 minCapacity =
        (.ok, s.1.core, s.2) := if_pos henough
    simp only [hkept]
    exact hinv
  by_cases hfixed : s.1.core.growable = false
  · have hrefused : s.1.core.reserve cfg (s.1.arenaAt addr others) s.2 minCapacity =
        (.full, s.1.core, s.2) := (if_neg henough).trans (if_pos hfixed)
    simp only [hrefused]
    exact hinv
  · have hgrows : s.1.core.reserve cfg (s.1.arenaAt addr others) s.2 minCapacity =
        s.1.core.grow cfg (s.1.arenaAt addr others) s.2 minCapacity :=
      (if_neg henough).trans (if_neg hfixed)
    have hgrow : s.1.core.growable = true := Bool.eq_true_of_not_eq_false hfixed
    have hasks : s.1.growsTo (.reserve minCapacity : Call w V) = some minCapacity :=
      if_pos ⟨hgrow, BitVec.not_le.mp henough⟩
    obtain ⟨st, core, m, hgrown, hm, ⟨hst, rfl⟩ | ⟨rfl, number, rfl⟩⟩ :=
      hinv.grow_other others htyped hgrow (hnone _ hasks)
    · simp only [hgrows, hgrown]
      exact hinv.sameHeap hm
    · simp only [hgrows, hgrown]
      exact hinv.grown hgrow number hm

theorem Inv.clear (hinv : Inv addr s) : Inv addr (s.1.clear cfg s.2) := by
  have hheap := clear_heap cfg s.1.core s.2
  unfold VectorObject.clear
  unfold VectorCore.clear at hheap ⊢
  by_cases hempty : s.1.core.size = 0
  · rw [if_pos hempty]
    exact hinv
  · rw [if_neg hempty] at hheap ⊢
    exact (hinv.sameHeap hheap).resize (zero_le_word _)

/-- A call that takes no block leaves the vector without one. -/
theorem Inv.step (hinv : Inv addr s) (htyped : cfg.typed = true) {c : Call w V}
    (hnone : TakesNoBlock cfg s c) : Inv addr (call cfg addr others s c).2 := by
  cases c with
  | init storage capacity growable => exact hinv.init storage capacity growable
  | initSpan storage bytes capacity growable =>
    by_cases hshort : bytes < cfg.elemSize * capacity
    · have hrefused : s.1.initSpan cfg (givenPtr storage) bytes capacity growable =
          (.invalid, s.1) := if_pos hshort
      simp only [VectorObject.call, hrefused]
      exact hinv
    · have hinit : s.1.initSpan cfg (givenPtr storage) bytes capacity growable =
          s.1.init cfg (givenPtr storage) capacity growable := if_neg hshort
      simp only [VectorObject.call, hinit]
      exact hinv.init storage capacity growable
  | initFromArena arena initialCapacity growable =>
    exact hinv.initFromArena arena initialCapacity growable
  | pushBack elem => exact hinv.pushBack htyped elem hnone
  | popBack out => exact hinv.popBack htyped out
  | reserve minCapacity => exact hinv.reserve htyped minCapacity hnone
  | clear => exact hinv.clear

/-- A call that takes a block is a fault. -/
theorem Inv.step_takes (hinv : Inv addr s) (htyped : cfg.typed = true) {c : Call w V}
    (htakes : ¬ TakesNoBlock cfg s c) : (call cfg addr others s c).2.2.heap.fault = true := by
  unfold TakesNoBlock at htakes
  push Not at htakes
  obtain ⟨minCapacity, hasks, hfrom⟩ := htakes
  cases c with
  | pushBack elem =>
    by_cases hgrows : s.1.core.growable ∧ s.1.core.size = s.1.core.capacity
    · obtain ⟨hgrow, hfull⟩ := hgrows
      rw [growsTo, if_pos ⟨hgrow, hfull⟩] at hasks
      obtain rfl := Option.some.inj hasks
      have hfault := hinv.grow_fromHeap others htyped hgrow hfrom
      obtain ⟨m', hheap, hpush⟩ := pushBack_typed htyped s.1.core s.2
        (s.1.arenaAt addr others) elem rfl
      simp only [VectorObject.call, VectorObject.pushBack]
      rw [hpush]
      simp only [if_pos hfull] at hheap ⊢
      split
      · exact hfault
      · exact (congrArg Ledger.fault hheap).trans hfault
    · rw [growsTo, if_neg hgrows] at hasks
      cases hasks
  | reserve requested =>
    by_cases hgrows : s.1.core.growable ∧ s.1.core.capacity < requested
    · rw [growsTo, if_pos hgrows] at hasks
      obtain rfl := Option.some.inj hasks
      have hreserve : s.1.core.reserve cfg (s.1.arenaAt addr others) s.2 requested =
          s.1.core.grow cfg (s.1.arenaAt addr others) s.2 requested := by
        rw [VectorCore.reserve, if_neg (BitVec.not_le.mpr hgrows.2), hgrows.1]
        rfl
      simp only [VectorObject.call, VectorObject.reserve]
      rw [hinv.bindGrowAlloc, hreserve]
      exact hinv.grow_fromHeap others htyped hgrows.1 hfrom
    · rw [growsTo, if_neg hgrows] at hasks
      cases hasks
  | _ => cases hasks

/-- The heap after the destructor, which clears the vector. -/
def heapAtEnd (cfg : VectorConfig w V) (s : VectorObject w × VectorMemory V) : Ledger BlockPtr :=
  (s.1.clear cfg s.2).2.heap

/-- **When a vector gives back what it takes**: after any calls on a vector, every block that was
passed to the heap was a block of the vector, and the destructor leaves none behind, exactly if no
call grew the vector into a block of the heap. -/
theorem settled_iff (cfg : VectorConfig w V) (htyped : cfg.typed = true) (addr : ℕ)
    (others : ℕ → Option ℕ) (memory : BlockPtr × ℕ → V) (calls : List (Call w V)) :
    (heapAtEnd cfg (Mealy.final (call cfg addr others)
        (VectorObject.default w, VectorMemory.start memory) calls)).Settled ↔
      Mealy.EveryCall (call cfg addr others) (TakesNoBlock cfg)
        (VectorObject.default w, VectorMemory.start memory) calls := by
  have hend : ∀ s : VectorObject w × VectorMemory V, heapAtEnd cfg s = s.2.heap :=
    fun s => clear_heap cfg s.1.core s.2
  symm
  refine Mealy.everyCall_iff_final (Inv addr) (fun s => s.2.heap.fault = true)
    (fun s => (heapAtEnd cfg s).Settled) (fun s c hinv hnone => hinv.step htyped hnone)
    (fun s c hinv htakes => hinv.step_takes htyped htakes) (fun s c hfault => call_fault hfault c)
    (fun s hinv => ?_) (fun s hfault hsettled => ?_) (inv_default w addr memory) calls
  · rw [hend]
    exact hinv.heap.settled
  · rw [hend] at hsettled
    rw [hsettled.no_fault] at hfault
    cases hfault

/-- Words of 64 bits in a heap that grants every request, and an arena that grants what fits 256
bytes. -/
def wordVector : VectorConfig 64 ℕ where
  policy := .bytewise ℕ
  typed := true
  needsDestroy := false
  elemSize := 8
  allowHeap := true
  grants _ _ := true
  arenaAllocate _ n bytes := if bytes ≤ 256 then .ok n else .error .oom
  arena_refuses _ _ bytes st h := by
    by_cases hfits : bytes ≤ 256
    · rw [if_pos hfits] at h
      cases h
    · rw [if_neg hfits] at h
      cases h
      decide

/-- A vector that is initialised twice, and grows in an arena. -/
def arenaCalls : List (Call 64 ℕ) :=
  [.init (some 0) 2 true, .pushBack 7, .initFromArena 0 1 true, .pushBack 1, .pushBack 2,
    .pushBack 3, .popBack none, .reserve 16, .clear]

theorem settled_arenaCalls :
    (heapAtEnd wordVector (Mealy.final (call wordVector 0 fun _ => none)
      (VectorObject.default 64, VectorMemory.start fun _ => 0) arenaCalls)).Settled :=
  (settled_iff wordVector rfl 0 (fun _ => none) (fun _ => 0) arenaCalls).mpr (by decide +kernel)

/-- **The storage of the caller is freed.** A vector over an array of one element grows: it frees the
array, and the destructor does not free the block of the heap. -/
theorem frees_given_block :
    let s := Mealy.final (call wordVector 0 fun _ => none)
      (VectorObject.default 64, VectorMemory.start fun _ => 0)
      [.init (some 0) 1 true, .pushBack 1]
    let t := call wordVector 0 (fun _ => none) s (.pushBack 2)
    s.1.core.storage = .given 0 ∧ s.2.heap.fault = false ∧ t.1 = .status .ok ∧
      t.2.2.heap.fault = true ∧ t.2.1.core.storage = .heap 0 ∧
      (heapAtEnd wordVector t.2).live (.heap 0) = true ∧ ¬ (heapAtEnd wordVector t.2).Settled := by
  decide +kernel

end Runs

end VectorObject

end Memkit
