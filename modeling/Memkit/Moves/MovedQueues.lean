import Memkit.Foundations.Noninterference
import Memkit.Sequences.PQueue
import Memkit.Sequences.RingBuffer
import Memkit.Sequences.VectorCore

/-! # Moving a ring and a priority queue

The classes `Ring` and `PQueue` of `containers/ring.hpp` and `containers/pqueue.hpp`, as objects over
a memory. Their move constructors and assignments copy `core_`, and give up `owns_storage_` only, so
the source still points to the storage of the destination and counts the same elements in it. -/

namespace Memkit

variable {w : ℕ} {V : Type*}

/-- The elements of all objects, and the number of requests made of the allocator. -/
structure ObjectMemory (α V : Type*) where
  contents : α → V
  requests : ℕ

/-- What a destructor releases: an element, or a block of memory. -/
inductive Released (α β : Type*)
  | element (slot : α)
  | block (block : β)
  deriving DecidableEq, Repr

/-! ## The ring -/

/-- The members of `Ring`; `copies` counts the copies that its policy has made. -/
structure Ring (w : ℕ) extends RingIndices w where
  copies : ℕ
  /-- `owns_storage_`. -/
  ownsStorage : Bool

namespace Ring

/-- `core_`, with the elements. -/
def core (h : Ring w) (m : ObjectMemory (ℕ × ℕ) V) : RingBuffer w V :=
  { h.toRingIndices with cells := ⟨m.contents, h.copies, .empty _⟩, allocs := m.requests }

/-- The members and the memory after a call of `core_`. -/
def after (h : Ring w) (s : RingBuffer w V) : Ring w × ObjectMemory (ℕ × ℕ) V :=
  ({ s.toRingIndices with copies := s.cells.copies, ownsStorage := h.ownsStorage },
    ⟨s.cells.contents, s.allocs⟩)

/-- A call of the class; the `try_` functions are `popFront` and the two peeks. -/
inductive Call (w : ℕ) (V : Type*)
  | pushBack (value : V)
  | popFront (out : Option V)
  | peekFront (out : V)
  | peekBack (out : V)
  /-- `data_at`, and the element there. -/
  | dataAt (index : BitVec w)
  | readableContiguous (hasOut : Bool)
  | writableContiguous (hasOut : Bool)
  /-- The caller writes through the pointer of `writable_contiguous`. -/
  | store (offset : ℕ) (value : V)
  | commitRead (n : BitVec w)
  | commitWrite (n : BitVec w)
  | clear
  /-- `size`, `capacity`, `empty` and `full`. -/
  | sizes

/-- What a call answers. -/
inductive Reply (w : ℕ) (V : Type*)
  | answer (answer : Answer V)
  | element (elem : Option V)
  | span (start : Option (ℕ × ℕ)) (count : BitVec w)
  | sizes (size capacity : BitVec w)
  deriving DecidableEq, Repr

/-- The flags of a `Ring`: `to_detail_policy` does not set the `growable` bit. -/
def fixed (cfg : RingConfig w V) : RingConfig w V := { cfg with growable := false }

/-- Dispatch a call to `core_`. -/
def run (cfg : RingConfig w V) (s : RingBuffer w V) : Call w V → Reply w V × RingBuffer w V
  | .pushBack value =>
    let (st, s) := s.pushBack cfg (some value) cfg.overwriteOnFull
    (.answer (.status st), s)
  | .popFront out =>
    let (result, s) := s.popFront cfg out
    (.answer (.ofOut result), s)
  | .peekFront out => (.answer (.ofOut (s.peekFront (some out))), s)
  | .peekBack out => (.answer (.ofOut (s.peekBack (some out))), s)
  | .dataAt index =>
    (.element
      (if s.count ≤ index then none else some (s.cells.contents (s.slotAt (s.logicalIndex index)))),
      s)
  | .readableContiguous hasOut =>
    -- the core gets a pointer of its own, and its length is returned in either case
    let (start, n) := s.readableContiguous true
    (.span (if hasOut = true ∧ 0 < n then start else none) n, s)
  | .writableContiguous hasOut =>
    let ((start, n), s) := s.writableContiguous cfg true
    (.span (if hasOut = true ∧ 0 < n then start else none) n, s)
  | .store offset value =>
    let ((start, n), s) := s.writableContiguous cfg true
    match start with
    | none => (.answer .done, s)
    | some (block, index) =>
      (.answer .done,
        if offset < n.toNat then { s with cells := s.cells.write (block, index + offset) value }
        else s)
  | .commitRead n => (.answer .done, s.commitRead cfg n)
  | .commitWrite n => (.answer .done, s.commitWrite n)
  | .clear => (.answer .done, s.clear cfg)
  | .sizes => (.sizes s.count s.capacity, s)

/-- What `~Ring` releases: `clear` and `release_storage`. -/
def released (cfg : RingConfig w V) (h : Ring w) : List (Released (ℕ × ℕ) ℕ) :=
  (if cfg.needsDestroy then
    (List.range h.count.toNat).map fun i => .element (h.slotAt (h.logicalIndex (BitVec.ofNat w i)))
  else []) ++
  if h.ownsStorage ∧ h.capacity ≠ 0 then [.block h.block] else []

/-- `Ring` as a class of objects. The members other than `owns_storage_` are left in the source. -/
def objectClass (cfg : RingConfig w V) :
    ObjectClass (Ring w) (ObjectMemory (ℕ × ℕ) V) Unit (Call w V) (Reply w V)
      (Released (ℕ × ℕ) ℕ) where
  call _ _ h m c :=
    let (reply, s) := run (fixed cfg) (h.core m) c
    (reply, h.after s)
  shown _ := ()
  destroy h m := (h.after ((h.core m).clear (fixed cfg))).2
  released h _ := h.released cfg
  left h := { h with ownsStorage := false }

/-- There is no element, or nothing is done to destroy one. -/
def NoDestroy (cfg : RingConfig w V) (h : Ring w) : Prop := h.count = 0 ∨ cfg.needsDestroy = false

/-- A call of the source that does not touch the elements: nothing is pushed, and no element is
destroyed. -/
def IdleCall (cfg : RingConfig w V) (h : Ring w) : Call w V → Prop
  | .pushBack _ => h.capacity = 0 ∨ h.capacity ≤ h.count ∧ cfg.overwriteOnFull = false
  | .popFront out => h.NoDestroy cfg ∨ out.isSome
  | .store _ _ => h.capacity ≤ h.count
  | .commitRead n => n = 0 ∨ h.NoDestroy cfg
  | .clear => h.NoDestroy cfg
  | _ => True

/-- The calls on the source, its destruction included, do not touch the elements as long as it points
to the storage of the destination. -/
def Idle (cfg : RingConfig w V)
    (s : Twin (Ring w) (ObjectMemory (ℕ × ℕ) V) Unit (Released (ℕ × ℕ) ℕ)) :
    TwinCall (Call w V) Unit → Prop
  | .source c => ∀ h, s.source = .sharing h → h.IdleCall cfg c
  | .destroy _ => ∀ h, s.source = .sharing h → h.NoDestroy cfg
  | _ => True

variable {cfg : RingConfig w V}

/-- Without an element to destroy, the loops of `clear` and `commit_read` do nothing. -/
theorem destroyFirst_of_noDestroy (hno : cfg.needsDestroy = false) (s : RingBuffer w V) (n : ℕ) :
    s.destroyFirst cfg n = s := by
  unfold RingBuffer.destroyFirst RingBuffer.destroySlot
  simp only [hno, Bool.false_eq_true, if_false, List.foldl_fixed]

/-- The call has left the elements and the allocator alone. -/
structure SameMemory (s t : RingBuffer w V) : Prop where
  contents : t.cells.contents = s.cells.contents
  allocs : t.allocs = s.allocs

theorem SameMemory.refl (s : RingBuffer w V) : SameMemory s s := ⟨rfl, rfl⟩

theorem sameMemory_clear {s : RingBuffer w V} (hno : s.count = 0 ∨ cfg.needsDestroy = false) :
    SameMemory s (s.clear (fixed cfg)) := by
  unfold RingBuffer.clear
  by_cases hempty : s.count = 0
  · rw [if_pos hempty]
    exact .refl s
  · have hno : (fixed cfg).needsDestroy = false := hno.resolve_left hempty
    rw [if_neg hempty, destroyFirst_of_noDestroy hno]
    exact ⟨rfl, rfl⟩

theorem sameMemory_pushBack {s : RingBuffer w V} (value : V)
    (hidle : s.capacity = 0 ∨ s.capacity ≤ s.count ∧ cfg.overwriteOnFull = false) :
    (s.pushBack (fixed cfg) (some value) (fixed cfg).overwriteOnFull).2 = s := by
  unfold RingBuffer.pushBack
  by_cases hzero : s.capacity = 0
  · simp only [if_pos hzero]
  · obtain ⟨hfull, hover⟩ := hidle.resolve_left hzero
    have hover' : (fixed cfg).overwriteOnFull = false := hover
    have hfixed : (fixed cfg).growable = false := rfl
    simp only [if_neg hzero]
    by_cases heq : s.count = s.capacity
    · rw [if_pos ⟨heq, hfixed, hover', hover'⟩]
    · rw [if_neg fun h => heq h.1]
      unfold RingBuffer.makeRoomBack
      simp [hfull, hover', hfixed]

theorem sameMemory_extractSlot (s : RingBuffer w V) (slot : ℕ × ℕ) {out : Option V}
    (hidle : cfg.needsDestroy = false ∨ out.isSome) :
    SameMemory s (s.extractSlot (fixed cfg) slot out).2 := by
  cases out with
  | none =>
    have hno : (fixed cfg).needsDestroy = false := hidle.resolve_right nofun
    unfold RingBuffer.extractSlot RingBuffer.destroySlot
    rw [if_neg (by rw [hno]; nofun)]
    exact .refl s
  | some out => exact ⟨rfl, rfl⟩

theorem sameMemory_popFront {s : RingBuffer w V} {out : Option V}
    (hidle : (s.count = 0 ∨ cfg.needsDestroy = false) ∨ out.isSome) :
    SameMemory s (s.popFront (fixed cfg) out).2 := by
  unfold RingBuffer.popFront
  by_cases hempty : s.count = 0
  · rw [if_pos hempty]
    exact .refl s
  · have hextract := sameMemory_extractSlot s (s.slotAt s.tail)
      (hidle.imp_left fun h => h.resolve_left hempty)
    rw [if_neg hempty]
    generalize s.extractSlot (fixed cfg) (s.slotAt s.tail) out = r at hextract ⊢
    by_cases hst : r.1.1 ≠ .ok
    · simp only [if_pos hst]
      exact hextract
    · simp only [if_neg hst]
      exact ⟨hextract.contents, hextract.allocs⟩

theorem sameMemory_commitRead {s : RingBuffer w V} {n : BitVec w}
    (hidle : n = 0 ∨ s.count = 0 ∨ cfg.needsDestroy = false) :
    SameMemory s (s.commitRead (fixed cfg) n) := by
  unfold RingBuffer.commitRead
  by_cases hnone : n = 0 ∨ s.count = 0
  · rw [if_pos hnone]
    exact .refl s
  · have hno : (fixed cfg).needsDestroy = false := by
      rw [not_or] at hnone
      exact (hidle.resolve_left hnone.1).resolve_left hnone.2
    rw [if_neg hnone]
    simp only [destroyFirst_of_noDestroy hno]
    exact ⟨rfl, rfl⟩

/-- `writable_contiguous` of a ring does not grow it. -/
theorem writableContiguous_fixed (s : RingBuffer w V) :
    (s.writableContiguous (fixed cfg) true).2 = s := by
  have hfixed : (fixed cfg).growable = false := rfl
  unfold RingBuffer.writableContiguous
  by_cases hfull : s.capacity ≤ s.count
  · simp [hfull, hfixed]
  · simp [hfull]

/-- **An idle call** leaves the memory as it is. -/
theorem sameMemory_run {h : Ring w} {m : ObjectMemory (ℕ × ℕ) V} {c : Call w V}
    (hidle : h.IdleCall cfg c) : SameMemory (h.core m) (run (fixed cfg) (h.core m) c).2 := by
  cases c with
  | pushBack value =>
    have hsame : (run (fixed cfg) (h.core m) (.pushBack value)).2 = h.core m :=
      sameMemory_pushBack value hidle
    rw [hsame]
    exact .refl _
  | popFront out => exact sameMemory_popFront hidle
  | writableContiguous hasOut =>
    have hsame : (run (fixed cfg) (h.core m) (.writableContiguous hasOut)).2 = h.core m :=
      writableContiguous_fixed _
    rw [hsame]
    exact .refl _
  | store offset value =>
    have hfull : (h.core m).capacity ≤ (h.core m).count := hidle
    have hnone : (h.core m).writableContiguous (fixed cfg) true = ((none, 0), h.core m) := by
      have hfixed : (fixed cfg).growable = false := rfl
      unfold RingBuffer.writableContiguous
      simp [hfull, hfixed]
    simp only [run, hnone]
    exact .refl _
  | commitRead n => exact sameMemory_commitRead hidle
  | commitWrite n =>
    simp only [run, RingBuffer.commitWrite]
    split
    · exact .refl _
    · exact ⟨rfl, rfl⟩
  | clear => exact sameMemory_clear hidle
  | peekFront out => exact .refl _
  | peekBack out => exact .refl _
  | dataAt index => exact .refl _
  | readableContiguous hasOut => exact .refl _
  | sizes => exact .refl _

theorem after_of_sameMemory {h : Ring w} {m : ObjectMemory (ℕ × ℕ) V} {s : RingBuffer w V}
    (hsame : SameMemory (h.core m) s) : (h.after s).2 = m := by
  unfold after
  rw [hsame.contents, hsame.allocs]
  rfl

/-- Idle calls on the source of a move are harmless; it owns nothing. -/
theorem harmless (cfg : RingConfig w V) :
    Twin.Harmless (objectClass cfg) (fun _ => False) (fun h => h.ownsStorage = false)
      (Idle cfg) where
  blind _ _ _ _ _ _ := rfl
  stays_blind _ h _ _ _ := h
  call s h c hsource hown hidle :=
    ⟨after_of_sameMemory (sameMemory_run (hidle h hsource)), hown, rfl⟩
  destroy s h e hsource hown hidle := by
    have hno := hidle h hsource
    refine ⟨after_of_sameMemory (sameMemory_clear hno), ?_⟩
    show h.released cfg = []
    unfold released
    rcases hno with hcount | hno
    · simp [hown, hcount]
    · simp [hown, hno]
  found _ _ _ hsees := hsees.elim

/-- **A moved-from ring is inert if it is left alone**: after a move, the destination is undisturbed
in every run in which the source pushes nothing into the storage it still points to and destroys no
element there. -/
theorem safeWhen_idle (cfg : RingConfig w V) : Twin.SafeWhen (objectClass cfg) (Idle cfg) :=
  (harmless cfg).safeWhen fun _ => rfl

end Ring

/-! ## The priority queue -/

/-- What is the same for all objects of the class `PQueue`: its policies and the heap. -/
structure PQueueClass (w : ℕ) (V : Type*) where
  /-- The policies of `core_`; its capacity and flags are members of the object. -/
  core : PQueueConfig w V
  /-- `MEMKIT_ALLOW_HEAP`. -/
  allowHeap : Bool
  /-- Whether the heap grants the `n`-th request, which is for this many bytes. -/
  grants : ℕ → BitVec w → Bool

/-- The members of `PQueue`; `copies` counts the copies that its policy has made. -/
structure PQueueObject (w : ℕ) where
  /-- `storage_`. -/
  storage : BlockPtr
  /-- `capacity_`. -/
  capacity : BitVec w
  /-- `size_`. -/
  size : ℕ
  /-- Whether `queue_policy_` has the `growable` bit. -/
  growable : Bool
  copies : ℕ
  /-- `owns_storage_`. -/
  ownsStorage : Bool

namespace PQueueObject

/-- The configuration of `core_`. No queue holds as many elements as half the words there are, so a
capacity from there on is as good as the last one below. -/
def config (cls : PQueueClass w V) (h : PQueueObject w) : PQueueConfig w V :=
  { cls.core with
    capacity := min h.capacity.toNat (2 ^ (w - 1) - 1)
    growable := h.growable
    capacity_lt := by have := Nat.two_pow_pos (w - 1); omega }

/-- `core_`, with the elements. -/
def core (h : PQueueObject w) (m : ObjectMemory (BlockPtr × ℕ) V) : PQueue V :=
  ⟨h.size, ⟨fun i => m.contents (h.storage, i), h.copies, .empty _⟩⟩

/-- The members and the memory after a call of `core_`. -/
def after (h : PQueueObject w) (m : ObjectMemory (BlockPtr × ℕ) V) (s : PQueue V) :
    PQueueObject w × ObjectMemory (BlockPtr × ℕ) V :=
  ({ h with size := s.size, copies := s.cells.copies },
    { m with
      contents := fun a => if a.1 = h.storage then s.cells.contents a.2 else m.contents a })

/-- `reallocate`. -/
def reallocate (cls : PQueueClass w V) (h : PQueueObject w) (m : ObjectMemory (BlockPtr × ℕ) V)
    (newCapacity : BitVec w) :
    Status × PQueueObject w × ObjectMemory (BlockPtr × ℕ) V :=
  if cls.allowHeap = false then (.unsupported, h, m)
  else if cls.grants m.requests (newCapacity * BitVec.ofNat w cls.core.elemSize) then
    -- `std::realloc` moves the bytes of the elements to the new block
    let storage := .heap m.requests
    (.ok, { h with storage := storage, capacity := newCapacity, ownsStorage := true },
      { contents := fun a =>
          if a.1 = storage ∧ a.2 < h.size then m.contents (h.storage, a.2) else m.contents a
        requests := m.requests + 1 })
  else (.oom, h, { m with requests := m.requests + 1 })

/-- `ensure_capacity`. -/
def ensureCapacity (cls : PQueueClass w V) (h : PQueueObject w)
    (m : ObjectMemory (BlockPtr × ℕ) V) (minCapacity : BitVec w) :
    Status × PQueueObject w × ObjectMemory (BlockPtr × ℕ) V :=
  if minCapacity ≤ h.capacity then (.ok, h, m)
  else if h.growable = false then (.full, h, m)
  else
    let newCapacity := growCapacity h.capacity minCapacity
    if newCapacity < minCapacity then (.oom, h, m) else reallocate cls h m newCapacity

/-- `reserve`. -/
def reserve (cls : PQueueClass w V) (h : PQueueObject w) (m : ObjectMemory (BlockPtr × ℕ) V)
    (minCapacity : BitVec w) : Status × PQueueObject w × ObjectMemory (BlockPtr × ℕ) V :=
  if minCapacity ≤ h.capacity then (.ok, h, m)
  else if h.growable = false then (.full, h, m)
  else reallocate cls h m (growCapacity h.capacity minCapacity)

/-- `emplace`, to which the pushes delegate. -/
def emplace (cls : PQueueClass w V) (h : PQueueObject w) (m : ObjectMemory (BlockPtr × ℕ) V)
    (value : V) : Status × PQueueObject w × ObjectMemory (BlockPtr × ℕ) V :=
  let (growSt, h, m) := ensureCapacity cls h m (BitVec.ofNat w (h.size + 1))
  if growSt ≠ .ok then (growSt, h, m)
  else
    let (st, s) := (h.core m).push (h.config cls) (some value)
    (st, h.after m s)

/-- A call of the class. -/
inductive Call (w : ℕ) (V : Type*)
  | push (value : V)
  | pop (out : Option V)
  | peek (out : V)
  /-- `top`, and the element there. -/
  | top
  /-- The visitor answers by what it has seen. -/
  | forEach (visit : List (V × ℕ) → Status)
  | reserve (minCapacity : BitVec w)
  | clear
  /-- `size`, `capacity`, `empty` and `full`. -/
  | sizes

/-- What a call answers. -/
inductive Reply (w : ℕ) (V : Type*)
  | answer (answer : Answer V)
  | element (elem : Option V)
  | sizes (size : ℕ) (capacity : BitVec w) (full : Bool)
  deriving DecidableEq, Repr

/-- `for_each` of `core_`. -/
def forEach (h : PQueueObject w) (m : ObjectMemory (BlockPtr × ℕ) V)
    (visit : List (V × ℕ) → Status) : Status × List (V × ℕ) :=
  if h.storage = .null then (.nullPtr, [])
  else visitLoop visit [] ((List.range h.size).map fun i => (m.contents (h.storage, i), i))

/-- Dispatch a call. -/
def call (cls : PQueueClass w V) (h : PQueueObject w) (m : ObjectMemory (BlockPtr × ℕ) V) :
    Call w V → Reply w V × PQueueObject w × ObjectMemory (BlockPtr × ℕ) V
  | .push value =>
    let (st, next) := emplace cls h m value
    (.answer (.status st), next)
  | .pop out =>
    let (result, s) := (h.core m).pop (h.config cls) out
    (.answer (.ofOut result), h.after m s)
  | .peek out => (.answer (.ofOut ((h.core m).peek (some out))), h, m)
  | .top => (.element (if h.size = 0 then none else some (m.contents (h.storage, 0))), h, m)
  | .forEach visit => (.answer (.ofVisits (h.forEach m visit)), h, m)
  | .reserve minCapacity =>
    let (st, next) := reserve cls h m minCapacity
    (.answer (.status st), next)
  | .clear => (.answer .done, h.after m ((h.core m).clear (h.config cls)))
  | .sizes => (.sizes h.size h.capacity ((h.core m).full (h.config cls)), h, m)

/-- What `~PQueue` releases: `clear` and `release_storage`. -/
def released (cls : PQueueClass w V) (h : PQueueObject w) :
    List (Released (BlockPtr × ℕ) BlockPtr) :=
  (if cls.core.needsDestroy then (List.range h.size).map fun i => .element (h.storage, i) else []) ++
  if h.ownsStorage ∧ h.storage ≠ .null then [.block h.storage] else []

/-- `PQueue` as a class of objects. The members other than `owns_storage_` are left in the source. -/
def objectClass (cls : PQueueClass w V) :
    ObjectClass (PQueueObject w) (ObjectMemory (BlockPtr × ℕ) V) Unit (Call w V) (Reply w V)
      (Released (BlockPtr × ℕ) BlockPtr) where
  call _ _ h m c := h.call cls m c
  shown _ := ()
  destroy h m := (h.after m ((h.core m).clear (h.config cls))).2
  released h _ := h.released cls
  left h := { h with ownsStorage := false }

/-- There is no element, or nothing is done to destroy one. -/
def NoDestroy (cls : PQueueClass w V) (h : PQueueObject w) : Prop :=
  h.size = 0 ∨ cls.core.needsDestroy = false

/-- The queue has no room for this many elements, and does not grow. -/
def Refuses (cls : PQueueClass w V) (h : PQueueObject w) (minCapacity : BitVec w) : Prop :=
  h.capacity < minCapacity ∧ (h.growable = false ∨ cls.allowHeap = false)

/-- A call of the source that does not touch the elements or the storage: nothing is pushed, nothing
is popped but the last element, no element is destroyed, and the storage does not grow. -/
def IdleCall (cls : PQueueClass w V) (h : PQueueObject w) : Call w V → Prop
  | .push _ => h.Refuses cls (BitVec.ofNat w (h.size + 1))
  | .pop out => h.size = 0 ∨ h.size = 1 ∧ (cls.core.needsDestroy = false ∨ out.isSome)
  | .reserve minCapacity => minCapacity ≤ h.capacity ∨ h.Refuses cls minCapacity
  | .clear => h.NoDestroy cls
  | _ => True

/-- The calls on the source, its destruction included, do not touch the elements or the storage as
long as it points to the storage of the destination. -/
def Idle (cls : PQueueClass w V)
    (s : Twin (PQueueObject w) (ObjectMemory (BlockPtr × ℕ) V) Unit
      (Released (BlockPtr × ℕ) BlockPtr)) : TwinCall (Call w V) Unit → Prop
  | .source c => ∀ h, s.source = .sharing h → h.IdleCall cls c
  | .destroy _ => ∀ h, s.source = .sharing h → h.NoDestroy cls
  | _ => True

variable {cls : PQueueClass w V} {h : PQueueObject w} {m : ObjectMemory (BlockPtr × ℕ) V}

/-- A call of `core_` that leaves the elements alone leaves the memory alone. -/
theorem after_contents {s : PQueue V} (hsame : s.cells.contents = (h.core m).cells.contents) :
    (h.after m s).2 = m := by
  have hcontents : (h.after m s).2.contents = m.contents := by
    funext a
    show (if a.1 = h.storage then s.cells.contents a.2 else m.contents a) = m.contents a
    by_cases ha : a.1 = h.storage
    · rw [if_pos ha, hsame]
      show m.contents (h.storage, a.2) = m.contents a
      rw [← ha]
    · exact if_neg ha
  exact congrArg (fun contents => { m with contents := contents }) hcontents

theorem contents_clear (hno : h.NoDestroy cls) :
    ((h.core m).clear (h.config cls)).cells.contents = (h.core m).cells.contents := by
  unfold PQueue.clear
  rcases hno with hempty | hno
  · have hsize : (h.core m).size = 0 := hempty
    by_cases hneeds : (h.config cls).needsDestroy = true
    · simp only [if_pos hneeds, PQueue.destroyAll, hsize, List.range_zero, List.foldl_nil]
    · simp only [if_neg hneeds]
  · have hneeds : ¬ (h.config cls).needsDestroy = true := by
      rw [show (h.config cls).needsDestroy = cls.core.needsDestroy from rfl, hno]
      nofun
    simp only [if_neg hneeds]

/-- The root is copied out, or left, if it is not destroyed. -/
theorem contents_takeRoot {cfg : PQueueConfig w V} {s : PQueue V} {out : Option V}
    (hidle : cfg.needsDestroy = false ∨ out.isSome) :
    (s.takeRoot cfg out).2.cells.contents = s.cells.contents ∧
      (s.takeRoot cfg out).2.size = s.size := by
  cases out with
  | none =>
    have hno := hidle.resolve_right nofun
    unfold PQueue.takeRoot
    rw [if_neg (by rw [hno]; nofun)]
    exact ⟨rfl, rfl⟩
  | some out => exact ⟨rfl, rfl⟩

theorem contents_pop {cfg : PQueueConfig w V} {s : PQueue V} {out : Option V}
    (hidle : s.size = 0 ∨ s.size = 1 ∧ (cfg.needsDestroy = false ∨ out.isSome)) :
    (s.pop cfg out).2.cells.contents = s.cells.contents := by
  unfold PQueue.pop
  by_cases hempty : s.size = 0
  · rw [if_pos hempty]
  · obtain ⟨hone, htake⟩ := hidle.resolve_left hempty
    obtain ⟨hcontents, hsize⟩ := contents_takeRoot (s := s) htake
    rw [if_neg hempty]
    generalize s.takeRoot cfg out = r at hcontents hsize ⊢
    have hlast : r.2.size - 1 = 0 := by rw [hsize, hone]
    by_cases hst : r.1.1 ≠ .ok
    · simp only [if_pos hst]
      exact hcontents
    · simp only [if_neg hst, if_pos hlast]
      exact hcontents

/-- Without a heap, the storage stays as it is. -/
theorem reallocate_unsupported (hheap : cls.allowHeap = false) (newCapacity : BitVec w) :
    reallocate cls h m newCapacity = (.unsupported, h, m) := if_pos hheap

theorem ensureCapacity_refused {minCapacity : BitVec w} (hrefuses : h.Refuses cls minCapacity) :
    ∃ st, st ≠ .ok ∧ ensureCapacity cls h m minCapacity = (st, h, m) := by
  obtain ⟨hshort, hno⟩ := hrefuses
  unfold ensureCapacity
  rw [if_neg (BitVec.not_le.mpr hshort)]
  by_cases hfixed : h.growable = false
  · exact ⟨.full, by decide, if_pos hfixed⟩
  · rw [if_neg hfixed]
    by_cases hover : growCapacity h.capacity minCapacity < minCapacity
    · exact ⟨.oom, by decide, if_pos hover⟩
    · exact ⟨.unsupported, by decide,
        (if_neg hover).trans (reallocate_unsupported (hno.resolve_left hfixed) _)⟩

theorem reserve_idle {minCapacity : BitVec w}
    (hidle : minCapacity ≤ h.capacity ∨ h.Refuses cls minCapacity) :
    (reserve cls h m minCapacity).2 = (h, m) := by
  unfold reserve
  by_cases henough : minCapacity ≤ h.capacity
  · rw [if_pos henough]
  rw [if_neg henough]
  by_cases hfixed : h.growable = false
  · rw [if_pos hfixed]
  · have hheap := (hidle.resolve_left henough).2.resolve_left hfixed
    rw [if_neg hfixed, reallocate_unsupported hheap]

/-- **An idle call** leaves the memory and the ownership as they are. -/
theorem call_idle {c : Call w V} (hidle : h.IdleCall cls c) :
    (h.call cls m c).2.2 = m ∧ (h.call cls m c).2.1.ownsStorage = h.ownsStorage := by
  cases c with
  | push value =>
    obtain ⟨st, hst, hrefused⟩ := ensureCapacity_refused (m := m) hidle
    have hfull : emplace cls h m value = (st, h, m) := by
      unfold emplace
      rw [hrefused]
      exact if_pos hst
    simp only [call, hfull, and_self]
  | pop out => exact ⟨after_contents (contents_pop hidle), rfl⟩
  | reserve minCapacity =>
    have hsame : (reserve cls h m minCapacity).2 = (h, m) := reserve_idle hidle
    simp only [call, hsame, and_self]
  | clear => exact ⟨after_contents (contents_clear hidle), rfl⟩
  | peek out => exact ⟨rfl, rfl⟩
  | top => exact ⟨rfl, rfl⟩
  | forEach visit => exact ⟨rfl, rfl⟩
  | sizes => exact ⟨rfl, rfl⟩

/-- Idle calls on the source of a move are harmless; it owns nothing. -/
theorem harmless (cls : PQueueClass w V) :
    Twin.Harmless (objectClass cls) (fun _ => False) (fun h => h.ownsStorage = false)
      (Idle cls) where
  blind _ _ _ _ _ _ := rfl
  stays_blind _ h _ _ _ := h
  call s h c hsource hown hidle := by
    obtain ⟨hmemory, howns⟩ := call_idle (m := s.memory) (hidle h hsource)
    exact ⟨hmemory, howns.trans hown, rfl⟩
  destroy s h e hsource hown hidle := by
    have hno := hidle h hsource
    refine ⟨after_contents (contents_clear hno), ?_⟩
    show h.released cls = []
    unfold released
    rcases hno with hsize | hno
    · simp [hown, hsize]
    · simp [hown, hno]
  found _ _ _ hsees := hsees.elim

/-- **A moved-from queue is inert if it is left alone**: after a move, the destination is undisturbed
in every run in which the source pushes nothing into the storage it still points to, rearranges and
destroys no element there, and does not grow it. -/
theorem safeWhen_idle (cls : PQueueClass w V) : Twin.SafeWhen (objectClass cls) (Idle cls) :=
  (harmless cls).safeWhen fun _ => rfl

end PQueueObject

end Memkit
