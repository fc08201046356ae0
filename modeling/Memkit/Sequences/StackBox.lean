import Memkit.Core.ElementStorage
import Memkit.Sequences.VectorCore

/-! # The stack of the C interface

`c_api/stack_box.hpp`: a `vector_core` with `runtime_element_policy` over storage of the caller, of
an arena or of the heap, as the configuration says.

* **`StackBox`** — the members of `stack_box`; the context of its grow allocator is the arena itself.
* **`Sound`** — the storage kind tells what the storage is, and the counters fit each other.
* **`LosesTag`** — a growth away from other storage into the heap stops in the middle.
* **`reallocate_cases`** — what growth does otherwise. -/

namespace Memkit

variable {w : ℕ} {V : Type*}

/-- `stack_config_t`, whose `elem_size` goes to the policy. -/
structure StackConfig (w : ℕ) extends ElementConfig w where
  /-- The bit `GROWABLE` of `flags`. -/
  growable : Bool
  deriving DecidableEq, Repr

/-- The members of `stack_box`. -/
structure StackBox (w : ℕ) where
  /-- `core_`. -/
  core : VectorCore w
  /-- The bits about storage in `c_flags_`. -/
  cFlags : ElementFlags
  deriving DecidableEq, Repr

/-- `allocate_element_storage`: the storage, its kind and `c_flags_`. -/
def allocateElementStorage (cfg : VectorConfig w V) (m : VectorMemory V) (config : ElementConfig w) :
    Except Status (BlockPtr × StorageKind × ElementFlags) × VectorMemory V :=
  let bytes := cfg.elemSize * config.capacity
  match config.storage with
  | some number => (.ok (.given number, .external, .cleared), m)
  | none =>
    match config.arena with
    | some arena =>
      let (result, m) := m.allocate cfg arena bytes
      (result.map fun ptr => (ptr, .ownsArena, ⟨true, false, true⟩), m)
    | none =>
      if cfg.allowHeap && config.flags.dynamicStorage then
        let (ptr, m) := m.malloc cfg bytes
        if ptr = .null then (.error .oom, m)
        else (.ok (ptr, .ownsHeap, ⟨true, true, false⟩), m)
      else (.error .invalid, m)

/-- `release_element_storage`. -/
def releaseElementStorage (cfg : VectorConfig w V) (m : VectorMemory V) (storage : BlockPtr)
    (kind : StorageKind) (flags : ElementFlags) : VectorMemory V :=
  if storage = .null then m
  else if cfg.allowHeap &&
      (kind.heap && kind.owns || flags.dynamicStorage && flags.ownsStorage) then
    m.free storage
  else m

namespace StackBox

/-- The box whose bytes are all 0. -/
def zeroed (w : ℕ) : StackBox w := ⟨.default w, .cleared⟩

/-- `stack_init`, which zeroes the box, and `stack_box::init`. -/
def init (cfg : VectorConfig w V) (m : VectorMemory V) (config : StackConfig w) :
    Status × StackBox w × VectorMemory V :=
  let valid := validateElementConfig cfg.elemSize (some config.toElementConfig)
  if valid ≠ .ok then (valid, zeroed w, m)
  else
    let capacity := if config.storage = none ∧ config.capacity = 0 then 1 else config.capacity
    match allocateElementStorage cfg m { config.toElementConfig with capacity := capacity } with
    | (.error st, m) => (st, zeroed w, m)
    | (.ok (storage, kind, flags), m) =>
      let (st, core) :=
        VectorCore.init cfg { VectorCore.default w with storageKind := kind } storage capacity
          config.growable
      if st ≠ .ok then (st, ⟨.default w, flags⟩, releaseElementStorage cfg m storage kind flags)
      else
        (.ok,
          { core := { core with growAlloc := config.arena }
            cFlags :=
              if config.storage ≠ none ∧ config.flags.ownsStorage = true then
                { flags with ownsStorage := true }
              else flags }, m)

/-- `deinit`. -/
def deinit (cfg : VectorConfig w V) (b : StackBox w) (m : VectorMemory V) :
    StackBox w × VectorMemory V :=
  let (core, m) := b.core.clear cfg m
  (zeroed w, releaseElementStorage cfg m core.storage core.storageKind b.cFlags)

/-- A call of the interface, or of `set_at` of the core. -/
inductive Call (w : ℕ) (V : Type*)
  | init (config : StackConfig w)
  | deinit
  | push (elem : Option V)
  | pop (out : Option V)
  | setAt (index : BitVec w) (elem : Option V)
  | reserve (minCapacity : BitVec w)
  | clear
  deriving DecidableEq, Repr

/-- Dispatch a call. -/
def call (cfg : VectorConfig w V) (s : StackBox w × VectorMemory V) :
    Call w V → Answer V × (StackBox w × VectorMemory V)
  | .init config =>
    let (st, b) := init cfg s.2 config
    (.status st, b)
  | .deinit => (.done, s.1.deinit cfg s.2)
  | .push elem =>
    let (st, core, m) := s.1.core.pushBack cfg some s.2 elem
    (.status st, { s.1 with core := core }, m)
  | .pop out =>
    let (result, core, m) := s.1.core.popBack cfg s.2 out
    (.ofOut result, { s.1 with core := core }, m)
  | .setAt index elem =>
    let (st, m) := s.1.core.setAt cfg s.2 index elem
    (.status st, s.1, m)
  | .reserve minCapacity =>
    let (st, core, m) := s.1.core.reserve cfg some s.2 minCapacity
    (.status st, { s.1 with core := core }, m)
  | .clear =>
    let (core, m) := s.1.core.clear cfg s.2
    (.done, { s.1 with core := core }, m)

end StackBox

/-! ## The storage kind -/

/-- The block is one of the heap. -/
def BlockPtr.isHeap : BlockPtr → Bool
  | .heap _ => true
  | _ => false

/-- The block is one of an arena. -/
def BlockPtr.isArena : BlockPtr → Bool
  | .arena _ => true
  | _ => false

/-- What the allocators grant has at most `PTRDIFF_MAX` bytes. -/
structure RealBlocks (cfg : VectorConfig w V) : Prop where
  heap : ∀ n bytes, cfg.grants n bytes = true → bytes.toNat < 2 ^ (w - 1)
  arena : ∀ arena n bytes number, cfg.arenaAllocate arena n bytes = .ok number →
    bytes.toNat < 2 ^ (w - 1)

namespace VectorCore

/-- The bits of the storage kind are true of the storage. A block of an arena may also go as storage
that the vector does not own. -/
structure Describes (s : VectorCore w) : Prop where
  heap : s.storageKind.heap = s.storage.isHeap
  arena : s.storageKind.arena = true → s.storage.isArena = true

/-- The storage kind tells what the storage is, and the counters fit each other. -/
structure Sound (cfg : VectorConfig w V) (s : VectorCore w) (m : VectorMemory V) : Prop where
  describes : Describes s
  allowed : s.storageKind.heap = true → cfg.allowHeap = true
  fresh : ∀ n, s.storage = .heap n → n < m.requests
  growable : s.growable = true →
    s.storage ≠ .null ∧ 0 < s.capacity.toNat ∧ 0 < cfg.elemSize.toNat
  capacity_lt : s.capacity.toNat < 2 ^ (w - 1)
  size_le : s.size ≤ s.capacity

/-- The growth leads away from storage that is not of the heap into a new block of the heap, and an
element cannot be copied there. -/
def LosesTag (cfg : VectorConfig w V) (s : VectorCore w) (m : VectorMemory V)
    (newCapacity : BitVec w) : Prop :=
  s.storageKind.heap = false ∧ s.growAlloc = none ∧ cfg.allowHeap = true ∧
    cfg.grants m.requests (newCapacity * cfg.elemSize) = true ∧
    (copyRange cfg (.heap m.requests) s.storage (List.range s.size.toNat) m.cells).1 ≠ .ok

instance (cfg : VectorConfig w V) (s : VectorCore w) (m : VectorMemory V) (newCapacity : BitVec w) :
    Decidable (LosesTag cfg s m newCapacity) :=
  inferInstanceAs (Decidable (_ ∧ _ ∧ _ ∧ _ ∧ _))

variable {cfg : VectorConfig w V} {s t : VectorCore w} {m m' : VectorMemory V}

/-! ## Copies to another block -/

/-- The loop of `copy_range` for a runtime policy. -/
theorem copyRange_eq_copySlots (htyped : cfg.typed = false) (dst src : BlockPtr) (is : List ℕ)
    (cells : Cells (BlockPtr × ℕ) V) :
    copyRange cfg dst src is cells =
      Cells.copySlots cfg.policy (fun i => (dst, i)) (fun i => (src, i)) is cells := by
  induction is generalizing cells with
  | nil => rfl
  | cons i is ih =>
    rw [copyRange, if_neg (by simp [htyped]), Cells.copySlots]
    dsimp only
    rw [ih]

/-- The copies write the slots of the new block only. -/
theorem copyRange_frame (htyped : cfg.typed = false) {dst src : BlockPtr} {is : List ℕ}
    (cells : Cells (BlockPtr × ℕ) V) {a : BlockPtr × ℕ} (ha : ∀ i ∈ is, a ≠ (dst, i)) :
    (copyRange cfg dst src is cells).2.contents a = cells.contents a := by
  rw [copyRange_eq_copySlots htyped]
  exact Cells.copySlots_frame cells ha

/-- If they succeed, the elements are in the new block. -/
theorem copyRange_copies (htyped : cfg.typed = false) (hfaithful : cfg.policy.Faithful)
    {dst src : BlockPtr} (hne : dst ≠ src) {is : List ℕ} (hnodup : is.Nodup)
    (cells : Cells (BlockPtr × ℕ) V) (hok : (copyRange cfg dst src is cells).1 = .ok) :
    ∀ i ∈ is, (copyRange cfg dst src is cells).2.contents (dst, i) = cells.contents (src, i) := by
  rw [copyRange_eq_copySlots htyped] at hok ⊢
  have hdst : (is.map fun i => (dst, i)).Nodup := hnodup.map fun _ _ heq => (Prod.mk.inj heq).2
  exact Cells.copySlots_copies hfaithful hdst
    (fun i _ j _ heq => hne (congrArg Prod.fst heq)) cells hok

/-- The elements are read in the block of the storage. -/
theorem elements_congr {cells : Cells (BlockPtr × ℕ) V} (hstorage : t.storage = s.storage)
    (hsize : t.size = s.size) (hcells : m'.cells = cells)
    (h : ∀ i < s.size.toNat, cells.contents (s.storage, i) = m.cells.contents (s.storage, i)) :
    t.elements m' = s.elements m := by
  rw [elements, elements, hsize]
  apply List.map_congr_left
  intro i hi
  rw [slotAt, hstorage, hcells]
  exact h i (List.mem_range.mp hi)

/-! ## Growth -/

/-- The elements are in a block of another capacity. -/
structure Grown (cfg : VectorConfig w V) (s : VectorCore w) (m : VectorMemory V)
    (newCapacity : BitVec w) (t : VectorCore w) (m' : VectorMemory V) : Prop where
  sound : Sound cfg t m'
  size : t.size = s.size
  capacity : t.capacity = newCapacity
  growable : t.growable = s.growable
  kind : t.storage = s.storage → t.storageKind = s.storageKind
  elements : t.elements m' = s.elements m

/-- What a growth does that does not lose the tag: it is refused, or leads to a new block. -/
inductive Growth (cfg : VectorConfig w V) (s : VectorCore w) (m : VectorMemory V)
    (newCapacity : BitVec w) : Status × VectorCore w × VectorMemory V → Prop
  | refused {st : Status} {m' : VectorMemory V} (hst : st ≠ .ok) (hsound : Sound cfg s m')
    (helements : s.elements m' = s.elements m) : Growth cfg s m newCapacity (st, s, m')
  | grown {t : VectorCore w} {m' : VectorMemory V} (hgrown : Grown cfg s m newCapacity t m') :
    Growth cfg s m newCapacity (.ok, t, m')

/-- A block that is adopted: its storage kind may be that of the heap already. -/
theorem adopt_cases {newPtr : BlockPtr} (hnull : s.storage ≠ .null) (hne : newPtr ≠ s.storage)
    (newCapacity : BitVec w) :
    ∃ m', s.adopt cfg m newPtr newCapacity =
        ((copyRange cfg newPtr s.storage (List.range s.size.toNat) m.cells).1,
          if (copyRange cfg newPtr s.storage (List.range s.size.toNat) m.cells).1 ≠ .ok then s
          else { s with storage := newPtr, capacity := newCapacity }, m') ∧
      m'.requests = m.requests ∧
      m'.cells = (copyRange cfg newPtr s.storage (List.range s.size.toNat) m.cells).2 := by
  have hcopies : (if 0 < s.size ∧ s.storage ≠ .null ∧ newPtr ≠ s.storage then
      copyRange cfg newPtr s.storage (List.range s.size.toNat) m.cells else (.ok, m.cells)) =
      copyRange cfg newPtr s.storage (List.range s.size.toNat) m.cells := by
    by_cases hpos : 0 < s.size
    · rw [if_pos ⟨hpos, hnull, hne⟩]
    · have hzero : s.size.toNat = 0 := by
        rw [BitVec.lt_def, show (0 : BitVec w).toNat = 0 from BitVec.toNat_zero] at hpos
        omega
      rw [if_neg fun hcond => hpos hcond.1, hzero]
      rfl
  unfold adopt
  dsimp only
  rw [hcopies]
  generalize copyRange cfg newPtr s.storage (List.range s.size.toNat) m.cells = r
  obtain ⟨st, cells⟩ := r
  by_cases hst : st ≠ .ok
  · simp only [if_pos hst]
    exact ⟨_, rfl, rfl, rfl⟩
  · simp only [if_neg hst]
    obtain rfl := not_not.mp hst
    refine ⟨_, rfl, ?_, ?_⟩
    · split <;> rfl
    · split <;> rfl

/-- More requests. -/
theorem Sound.later (h : Sound cfg s m) (hlater : m.requests ≤ m'.requests) : Sound cfg s m' :=
  ⟨h.describes, h.allowed, fun n hn => (h.fresh n hn).trans_le hlater, h.growable, h.capacity_lt,
    h.size_le⟩

section Reallocate

variable {newCapacity : BitVec w}

/-- The block of a growth is smaller than half of the memory. -/
theorem capacity_lt_of_real (hpos : 0 < cfg.elemSize.toNat)
    (hfit : newCapacity.toNat * cfg.elemSize.toNat < 2 ^ w)
    (hbytes : (newCapacity * cfg.elemSize).toNat < 2 ^ (w - 1)) :
    newCapacity.toNat < 2 ^ (w - 1) := by
  rw [BitVec.toNat_mul, Nat.mod_eq_of_lt hfit] at hbytes
  exact (Nat.le_mul_of_pos_right _ hpos).trans_lt hbytes

/-- What `growth_reallocate` asks of a growth. -/
structure Grows (cfg : VectorConfig w V) (s : VectorCore w) (newCapacity : BitVec w) : Prop where
  growable : s.growable = true
  enough : s.size ≤ newCapacity
  capacity_pos : 0 < newCapacity.toNat
  fits : newCapacity.toNat * cfg.elemSize.toNat < 2 ^ w

/-- The elements in a new block. -/
theorem Sound.grown (h : Sound cfg s m) (hgrows : Grows cfg s newCapacity) {ptr : BlockPtr}
    {kind : StorageKind} (hnull : ptr ≠ .null)
    (hdescribes : kind.heap = ptr.isHeap ∧ (kind.arena = true → ptr.isArena = true))
    (hallowed : kind.heap = true → cfg.allowHeap = true)
    (hfresh : ∀ n, ptr = .heap n → n < m'.requests)
    (hbytes : (newCapacity * cfg.elemSize).toNat < 2 ^ (w - 1))
    (hkind : ptr = s.storage → kind = s.storageKind)
    (helements : ∀ i < s.size.toNat,
      m'.cells.contents (ptr, i) = m.cells.contents (s.storage, i)) :
    Grown cfg s m newCapacity
      { s with storage := ptr, capacity := newCapacity, storageKind := kind } m' where
  sound :=
    { describes := ⟨hdescribes.1, hdescribes.2⟩
      allowed := hallowed
      fresh := hfresh
      growable := fun _ => ⟨hnull, hgrows.capacity_pos, (h.growable hgrows.growable).2.2⟩
      capacity_lt := capacity_lt_of_real (h.growable hgrows.growable).2.2 hgrows.fits hbytes
      size_le := hgrows.enough }
  size := rfl
  capacity := rfl
  growable := rfl
  kind := hkind
  elements := List.map_congr_left fun i hi => helements i (List.mem_range.mp hi)

/-- **Growth of a block of the heap**, by `realloc`. -/
theorem growth_reallocHeap (hreal : RealBlocks cfg) (h : Sound cfg s m)
    (hgrows : Grows cfg s newCapacity) (hheap : s.storageKind.heap = true) :
    Growth cfg s m newCapacity (s.reallocHeap cfg m newCapacity) := by
  obtain ⟨hnull, -, -⟩ := h.growable hgrows.growable
  have hblock := h.describes.heap
  rw [hheap] at hblock
  have hnew : BlockPtr.heap m.requests ≠ s.storage := by
    intro heq
    exact (h.fresh m.requests heq.symm).false
  unfold reallocHeap VectorMemory.realloc
  simp only [if_pos hnull]
  by_cases hgrants : cfg.grants m.requests (newCapacity * cfg.elemSize) = true
  · simp only [if_pos hgrants, reduceCtorEq, if_false]
    have hkind : s.storageKind.arena = true → (BlockPtr.heap m.requests).isArena = true := by
      intro harena
      have hstorage := h.describes.arena harena
      revert hblock hstorage
      cases s.storage <;> nofun
    have hdst : ((List.range s.size.toNat).map
        fun i => (BlockPtr.heap m.requests, i)).Nodup :=
      List.nodup_range.map fun _ _ heq => (Prod.mk.inj heq).2
    have hmoved := Cells.map_foldl_memcpy m.cells hdst
      fun i _ j _ (heq : (BlockPtr.heap m.requests, i) = s.slotAt j) =>
        hnew (congrArg Prod.fst heq)
    refine .grown (h.grown hgrows nofun ⟨hheap.trans rfl, hkind⟩ h.allowed ?_ (hreal.heap _ _ hgrants)
      (fun heq => absurd heq hnew) ?_)
    · rintro n hn
      obtain rfl := BlockPtr.heap.inj hn
      exact Nat.lt_succ_self _
    · intro i hi
      rw [List.map_map, List.map_map] at hmoved
      exact List.map_inj_left.mp hmoved i (List.mem_range.mpr hi)
  · simp only [if_neg hgrants, if_true]
    exact .refused nofun (h.later (Nat.le_succ _)) rfl

/-- **Growth into a block that is adopted.** -/
theorem growth_adopt (htyped : cfg.typed = false) (hfaithful : cfg.policy.Faithful)
    (h : Sound cfg s m) (hgrows : Grows cfg s newCapacity) (ptr : BlockPtr) (kind : StorageKind)
    (m' : VectorMemory V) (hlater : m.requests ≤ m'.requests) (hcells : m'.cells = m.cells)
    (hnull : ptr ≠ .null)
    (hne : ptr ≠ s.storage)
    (hdescribes : kind.heap = ptr.isHeap ∧ (kind.arena = true → ptr.isArena = true))
    (hallowed : kind.heap = true → cfg.allowHeap = true)
    (hfresh : ∀ n, ptr = .heap n → n < m'.requests)
    (hbytes : (newCapacity * cfg.elemSize).toNat < 2 ^ (w - 1))
    (hkept : (copyRange cfg ptr s.storage (List.range s.size.toNat) m.cells).1 ≠ .ok →
      kind = s.storageKind) :
    Growth cfg s m newCapacity
      (adopt cfg { s with storageKind := kind } m' ptr newCapacity) := by
  obtain ⟨m'', hadopt, hrequests, hcells'⟩ :=
    adopt_cases (s := { s with storageKind := kind }) (m := m')
      (h.growable hgrows.growable).1 hne newCapacity
  rw [hcells] at hadopt hcells'
  rw [hadopt]
  by_cases hst : (copyRange cfg ptr s.storage (List.range s.size.toNat) m.cells).1 ≠ .ok
  · obtain rfl := hkept hst
    rw [if_pos hst]
    refine .refused hst (h.later (hrequests ▸ hlater)) ?_
    refine elements_congr rfl rfl hcells' fun i _ => ?_
    exact copyRange_frame htyped _ fun j _ heq => hne (congrArg Prod.fst heq).symm
  · rw [if_neg hst, not_not.mp hst]
    refine .grown (h.grown hgrows hnull hdescribes hallowed (hrequests ▸ hfresh) hbytes
      (fun heq => absurd heq hne) fun i hi => ?_)
    rw [hcells']
    exact copyRange_copies htyped hfaithful hne List.nodup_range _ (not_not.mp hst) i
      (List.mem_range.mpr hi)

/-- A block of the arena. -/
theorem obtain_arena {arena : ℕ} (halloc : s.growAlloc = some arena) (bytes : BitVec w) :
    s.obtain cfg some m bytes =
      ((cfg.arenaAllocate arena m.requests bytes).map
          fun number => (.arena number, s.storageKind),
        { m with requests := m.requests + 1 }) := by
  simp only [obtain, halloc, VectorMemory.allocate]
  cases cfg.arenaAllocate arena m.requests bytes <;> rfl

/-- A block of the heap. -/
theorem obtain_heap (halloc : s.growAlloc = none) (hallow : cfg.allowHeap = true) {bytes : BitVec w}
    (hgrants : cfg.grants m.requests bytes = true) :
    s.obtain cfg some m bytes =
      (.ok (.heap m.requests, .ownsHeap),
        { m with
          heap := m.heap.construct (.heap m.requests) true
          requests := m.requests + 1 }) := by
  simp only [obtain, halloc, if_pos hallow, VectorMemory.malloc, if_pos hgrants, reduceCtorEq,
    if_false]

/-- No block. -/
theorem obtain_refused (halloc : s.growAlloc = none) {bytes : BitVec w}
    (hnone : ¬ (cfg.allowHeap = true ∧ cfg.grants m.requests bytes = true)) :
    ∃ st m', s.obtain cfg some m bytes = (.error st, m') ∧ st ≠ .ok ∧
      m.requests ≤ m'.requests ∧ m'.cells = m.cells := by
  by_cases hallow : cfg.allowHeap = true
  · have hrefused : ¬ cfg.grants m.requests bytes = true := fun hgrants => hnone ⟨hallow, hgrants⟩
    simp only [obtain, halloc, if_pos hallow, VectorMemory.malloc, if_neg hrefused, if_true]
    exact ⟨_, _, rfl, by rintro ⟨⟩, Nat.le_succ _, rfl⟩
  · simp only [obtain, halloc, if_neg hallow]
    exact ⟨_, _, rfl, by rintro ⟨⟩, le_rfl, rfl⟩

/-- **Growth** that does not lose the tag. -/
theorem growth_reallocate (htyped : cfg.typed = false) (hfaithful : cfg.policy.Faithful)
    (hreal : RealBlocks cfg) (h : Sound cfg s m) (hgrows : Grows cfg s newCapacity)
    (hkeeps : ¬ LosesTag cfg s m newCapacity) :
    Growth cfg s m newCapacity (s.reallocate cfg some m newCapacity) := by
  have henough : ¬ newCapacity < s.size := BitVec.not_lt.mpr hgrows.enough
  rw [reallocate, if_neg henough]
  -- a block of the heap goes through `realloc`; every other growth copies to a new block
  by_cases hheap : s.storageKind.heap = true
  · rw [if_pos (by rw [h.allowed hheap, hheap]; rfl)]
    exact growth_reallocHeap hreal h hgrows hheap
  rw [Bool.not_eq_true] at hheap
  rw [if_neg (by rw [hheap, Bool.and_false]; nofun)]
  rcases Option.eq_none_or_eq_some s.growAlloc with halloc | ⟨arena, halloc⟩
  -- from the arena, which may answer with the block of the vector itself
  case inr =>
    rw [obtain_arena halloc]
    cases hanswer : cfg.arenaAllocate arena m.requests (newCapacity * cfg.elemSize) with
    | error st => exact .refused (cfg.arena_refuses _ _ _ _ hanswer) (h.later (Nat.le_succ _)) rfl
    | ok number =>
      have hbytes := hreal.arena _ _ _ _ hanswer
      have hdescribes : s.storageKind.heap = (BlockPtr.arena number).isHeap ∧
          (s.storageKind.arena = true → (BlockPtr.arena number).isArena = true) :=
        ⟨hheap, fun _ => rfl⟩
      by_cases hne : BlockPtr.arena number = s.storage
      · -- the block that the vector has already
        have hadopt : adopt cfg { s with storageKind := s.storageKind }
            { m with requests := m.requests + 1 } (.arena number) newCapacity =
            (.ok, { s with storage := .arena number, capacity := newCapacity },
              { m with requests := m.requests + 1 }) := by
          simp [adopt, hne]
        simp only [Except.map]
        rw [hadopt]
        exact .grown (h.grown hgrows nofun hdescribes h.allowed nofun hbytes (fun _ => rfl)
          fun i _ => congrArg (fun ptr => m.cells.contents (ptr, i)) hne)
      · exact growth_adopt htyped hfaithful h hgrows (.arena number) s.storageKind
          { m with requests := m.requests + 1 } (Nat.le_succ _) rfl nofun hne hdescribes h.allowed
          nofun hbytes fun _ => rfl
  -- from the heap, if it is allowed and has a block
  case inl =>
    by_cases hgranted : cfg.allowHeap = true ∧
        cfg.grants m.requests (newCapacity * cfg.elemSize) = true
    · obtain ⟨hallow, hgrants⟩ := hgranted
      have hne : BlockPtr.heap m.requests ≠ s.storage := by
        intro heq
        exact (h.fresh m.requests heq.symm).false
      rw [obtain_heap halloc hallow hgrants]
      refine growth_adopt htyped hfaithful h hgrows (.heap m.requests) .ownsHeap
        { m with
          heap := m.heap.construct (.heap m.requests) true
          requests := m.requests + 1 } (Nat.le_succ _) rfl nofun hne ⟨rfl, nofun⟩
        (fun _ => hallow) ?_ (hreal.heap _ _ hgrants) fun hfailed => ?_
      · rintro n hn
        obtain rfl := BlockPtr.heap.inj hn
        exact Nat.lt_succ_self _
      · exact absurd ⟨hheap, halloc, hallow, hgrants, hfailed⟩ hkeeps
    · obtain ⟨st, m', hrefused, hst, hlater, hcells⟩ := obtain_refused halloc hgranted
      rw [hrefused]
      exact .refused hst (h.later hlater) (elements_congr rfl rfl hcells fun _ _ => rfl)

/-- **A growth that loses the tag** stops with the storage as it was and the storage kind of the
heap. -/
theorem reallocate_loses (h : Sound cfg s m) (hgrows : Grows cfg s newCapacity)
    (hloses : LosesTag cfg s m newCapacity) :
    ∃ st m', s.reallocate cfg some m newCapacity =
      (st, { s with storageKind := .ownsHeap }, m') ∧ st ≠ .ok := by
  obtain ⟨hheap, halloc, hallow, hgrants, hfailed⟩ := hloses
  have henough : ¬ newCapacity < s.size := BitVec.not_lt.mpr hgrows.enough
  have hne : BlockPtr.heap m.requests ≠ s.storage := by
    intro heq
    exact (h.fresh m.requests heq.symm).false
  obtain ⟨m', hadopt, -, -⟩ :=
    adopt_cases (s := { s with storageKind := .ownsHeap })
      (m := { m with
        heap := m.heap.construct (.heap m.requests) true
        requests := m.requests + 1 })
      (h.growable hgrows.growable).1 hne newCapacity
  rw [reallocate, if_neg henough, if_neg (by rw [hheap, Bool.and_false]; nofun),
    obtain_heap halloc hallow hgrants]
  dsimp only
  rw [hadopt, if_pos hfailed]
  exact ⟨_, _, rfl, hfailed⟩

end Reallocate

end VectorCore

end Memkit
