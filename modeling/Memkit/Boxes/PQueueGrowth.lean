import Memkit.Boxes.PQueueStorage

/-! # Priority queues that grow

The box frees and reallocates its own blocks of the heap only. The class reallocates whatever its
storage is, and its first storage is never of the heap, so its first growth is a fault.

* **`GrowthOutcome`** — what a growth should do: it keeps the elements, and the capacity if it fails.
* **`PQueueBox.Inv`** — the bits of a box tell whether its storage is of the heap.
* **`HeapQueue.NeverReallocates`** — the call does not make the class grow.
* **`growth_own_blocks_iff`** — in every run. -/

namespace Memkit

variable {w : ℕ} {V : Type*} {env : PQueueEnv w V}

/-- The size of a block that does not wrap. -/
theorem PQueueEnv.toNat_bytes (env : PQueueEnv w V) {capacity : BitVec w}
    (hfits : capacity.toNat * env.core.elemSize < 2 ^ w) :
    (env.bytes capacity).toNat = capacity.toNat * env.core.elemSize := by
  rw [bytes, BitVec.toNat_mul, BitVec.toNat_ofNat, Nat.mul_mod_mod, Nat.mod_eq_of_lt hfits]

/-! ## What a growth should do -/

/-- A growth to `minCapacity` elements that answers `st`: the elements are in their positions, the
capacity is enough if it is ok, and as before if it fails. -/
structure GrowthOutcome (h : PQueueObject w) (m : HeapMemory V) (minCapacity : BitVec w)
    (st : Status) (h' : PQueueObject w) (m' : HeapMemory V) : Prop where
  size : h'.size = h.size
  elements : ∀ i < h.size, m'.contents (h'.storage, i) = m.contents (h.storage, i)
  failed : st ≠ .ok → h'.capacity = h.capacity
  done : st = .ok → minCapacity ≤ h'.capacity

/-- Nothing has changed. -/
theorem GrowthOutcome.same (h : PQueueObject w) (m : HeapMemory V) {minCapacity : BitVec w}
    {st : Status} (hst : st = .ok → minCapacity ≤ h.capacity) :
    GrowthOutcome h m minCapacity st h m :=
  ⟨rfl, fun _ _ => rfl, fun _ => rfl, hst⟩

/-- A growth to more. -/
theorem GrowthOutcome.mono {h h' : PQueueObject w} {m m' : HeapMemory V} {st : Status}
    {minCapacity newCapacity : BitVec w} (hout : GrowthOutcome h m newCapacity st h' m')
    (hle : minCapacity ≤ newCapacity) : GrowthOutcome h m minCapacity st h' m' :=
  { hout with done := fun hst => BitVec.le_trans hle (hout.done hst) }

namespace PQueueObject

/-- The queue has no room for so many elements, and may grow. -/
def Grows (h : PQueueObject w) (minCapacity : BitVec w) : Prop :=
  h.growable = true ∧ h.capacity < minCapacity

instance (h : PQueueObject w) (minCapacity : BitVec w) : Decidable (h.Grows minCapacity) :=
  inferInstanceAs (Decidable (_ ∧ _))

/-- The size in bytes of the block for so many elements, if one is asked for, does not wrap. -/
def SizeFits (env : PQueueEnv w V) (h : PQueueObject w) (asked : Option (BitVec w)) : Prop :=
  ∀ minCapacity ∈ asked, h.Grows minCapacity →
    (growCapacity h.capacity minCapacity).toNat * env.core.elemSize < 2 ^ w

instance (h : PQueueObject w) : ∀ asked, Decidable (h.SizeFits env asked)
  | none => isTrue (by rintro _ ⟨⟩)
  | some minCapacity =>
    decidable_of_iff
      (h.Grows minCapacity →
        (growCapacity h.capacity minCapacity).toNat * env.core.elemSize < 2 ^ w)
      (by simp [SizeFits])

section Growth

variable {σ : Type*} {h : PQueueObject w} {s : σ} {reallocate : BitVec w → Status × σ}
  {minCapacity : BitVec w}

/-- **`ensure_capacity`** answers at once, or reaches `reallocate`. -/
theorem ensureCapacityBy_cases (s : σ) (reallocate : BitVec w → Status × σ)
    (minCapacity : BitVec w) (hpos : h.growable = true → 0 < h.capacity.toNat) :
    (¬ h.Grows minCapacity ∧ ∃ st, h.ensureCapacityBy s reallocate minCapacity = (st, s) ∧
        (st = .ok → minCapacity ≤ h.capacity)) ∨
      h.Grows minCapacity ∧ h.ensureCapacityBy s reallocate minCapacity =
        reallocate (growCapacity h.capacity minCapacity) := by
  unfold ensureCapacityBy
  by_cases hle : minCapacity ≤ h.capacity
  · exact .inl ⟨fun hgrows => absurd hgrows.2 (BitVec.not_lt.mpr hle), .ok, if_pos hle, fun _ => hle⟩
  rw [if_neg hle]
  by_cases hfixed : h.growable = false
  · have hnot : ¬ h.Grows minCapacity := by
      rintro ⟨hgrow, -⟩
      rw [hfixed] at hgrow
      cases hgrow
    exact .inl ⟨hnot, .full, if_pos hfixed, by rintro ⟨⟩⟩
  · have hgrow := Bool.eq_true_of_not_eq_false hfixed
    have henough := le_growCapacity (hpos hgrow) minCapacity
    rw [if_neg hfixed]
    exact .inr ⟨⟨hgrow, BitVec.not_le.mp hle⟩, if_neg (BitVec.not_lt.mpr henough)⟩

/-- **`reserve`** does the same: the capacity that `grow_capacity` computes is enough. -/
theorem reserveBy_eq (hpos : h.growable = true → 0 < h.capacity.toNat) :
    h.reserveBy s reallocate minCapacity = h.ensureCapacityBy s reallocate minCapacity := by
  unfold reserveBy ensureCapacityBy
  by_cases hle : minCapacity ≤ h.capacity
  · rw [if_pos hle, if_pos hle]
  rw [if_neg hle, if_neg hle]
  by_cases hfixed : h.growable = false
  · rw [if_pos hfixed, if_pos hfixed]
  · have henough := le_growCapacity (hpos (Bool.eq_true_of_not_eq_false hfixed)) minCapacity
    rw [if_neg hfixed, if_neg hfixed]
    exact (if_neg (BitVec.not_lt.mpr henough)).symm

end Growth

end PQueueObject

/-! ## The size of the core -/

namespace PQueue

variable {cfg : PQueueConfig w V}

/-- A push adds one element at most. -/
theorem size_push_le (cfg : PQueueConfig w V) (s : PQueue V) (value : Option V) :
    (push cfg s value).2.size ≤ s.size + 1 := by
  cases value with
  | none => exact Nat.le_succ _
  | some value =>
    by_cases hfull : full cfg s = true
    · rw [push, if_pos hfull]
      exact Nat.le_succ _
    rw [push_eq cfg s value hfull]
    split
    · exact Nat.le_succ _
    · exact (size_siftUpLoop cfg s.size (appended cfg s value).2 s.size).le

/-- A pop adds none. -/
theorem size_pop_le (cfg : PQueueConfig w V) (s : PQueue V) (out : Option V) :
    (pop cfg s out).2.size ≤ s.size := by
  have htake := (takeRoot_frame cfg s out).1
  rcases Nat.lt_or_ge 1 s.size with hmany | hfew
  · rw [pop_eq cfg s out hmany]
    split
    · exact htake.le
    split
    · exact le_rfl
    · refine (size_siftDownLoop cfg _ (moved cfg (takeRoot cfg s out).2) 0).le.trans ?_
      show (takeRoot cfg s out).2.size - 1 ≤ s.size
      omega
  · rw [pop]
    split
    · exact le_rfl
    · have hlast : (takeRoot cfg s out).2.size - 1 = 0 := by omega
      dsimp only
      rw [if_pos hlast]
      split
      · exact htake.le
      · exact (Nat.sub_le _ _).trans htake.le

end PQueue

/-! ## The box -/

namespace PQueueBox

variable {b t : PQueueBox w} {m m' : HeapMemory V} {newCapacity : BitVec w}

/-- The block of the heap that the box frees or reallocates, if there is one. -/
def ownBlocks (b : PQueueBox w) : List BlockPtr := if b.dynamicStorage then [b.storage] else []

/-- The bits of a box tell whether its storage is of the heap, where it has no other block. -/
structure Inv (env : PQueueEnv w V) (b : PQueueBox w) (m : HeapMemory V) : Prop where
  storage : b.storage ≠ .null
  fresh : ∀ n, b.storage = .heap n ∨ b.storage = .arena n → n < m.requests
  capacity_pos : 0 < b.capacity.toNat
  /-- Counting up from the largest word would wrap. -/
  size_le : b.capacity.toNat + 1 < 2 ^ w → b.size ≤ b.capacity.toNat
  allowed : b.dynamicStorage = true → env.allowHeap = true
  heap : m.heap.Holds {a | a ∈ b.ownBlocks}

theorem ownBlocks_of_dynamic (hdynamic : b.dynamicStorage = true) : b.ownBlocks = [b.storage] :=
  if_pos hdynamic

theorem ownBlocks_of_static (hstatic : b.dynamicStorage = false) : b.ownBlocks = [] :=
  if_neg (by rw [hstatic]; rintro ⟨⟩)

/-- Storage that is not of the heap is left alone. -/
theorem releaseStorage_of_static (hstatic : b.dynamicStorage = false) :
    b.releaseStorage env m = m := by
  unfold releaseStorage
  rw [hstatic, Bool.and_false]
  split <;> rfl

/-- A growth that leaves the box in order. -/
def Reallocated (env : PQueueEnv w V) (b : PQueueBox w) (m : HeapMemory V) (newCapacity : BitVec w)
    (r : Status × PQueueBox w × HeapMemory V) : Prop :=
  Inv env r.2.1 r.2.2 ∧
    GrowthOutcome b.toPQueueObject m newCapacity r.1 r.2.1.toPQueueObject r.2.2

/-- The growth is refused, or a copy fails. -/
theorem Inv.refused (hinv : Inv env b m) {st : Status} (hst : st ≠ .ok) (copies : ℕ)
    (hlater : m.requests ≤ m'.requests) (hheap : m'.heap.Holds {a | a ∈ b.ownBlocks})
    (hkept : ∀ i, m'.contents (b.storage, i) = m.contents (b.storage, i)) :
    Reallocated env b m newCapacity (st, { b with copies := copies }, m') := by
  refine ⟨?_, rfl, fun i _ => hkept i, fun _ => rfl, fun hok => absurd hok hst⟩
  exact ⟨hinv.storage, fun n hn => (hinv.fresh n hn).trans_le hlater, hinv.capacity_pos,
    hinv.size_le, hinv.allowed, hheap⟩

/-- The size is within a capacity that may be grown. -/
theorem Inv.size_le_of_lt (hinv : Inv env b m) (hmore : b.capacity < newCapacity) :
    b.size ≤ newCapacity.toNat := by
  have hlt := newCapacity.isLt
  rw [BitVec.lt_def] at hmore
  have hsize := hinv.size_le (by omega)
  omega

/-- The elements are in a larger block. -/
theorem Inv.grown (hinv : Inv env b m) (hmore : b.capacity < newCapacity)
    (hcapacity : t.capacity = newCapacity) (hsize : t.size = b.size) (hnull : t.storage ≠ .null)
    (hfresh : ∀ n, t.storage = .heap n ∨ t.storage = .arena n → n < m'.requests)
    (hallowed : t.dynamicStorage = true → env.allowHeap = true)
    (hheap : m'.heap.Holds {a | a ∈ t.ownBlocks})
    (helements : ∀ i < b.size, m'.contents (t.storage, i) = m.contents (b.storage, i)) :
    Reallocated env b m newCapacity (.ok, t, m') := by
  refine ⟨⟨hnull, hfresh, ?_, fun _ => ?_, hallowed, hheap⟩, hsize, helements,
    fun hnot => absurd rfl hnot, fun _ => ?_⟩
  · rw [hcapacity]
    exact (Nat.zero_le _).trans_lt hmore
  · rw [hcapacity, hsize]
    exact hinv.size_le_of_lt hmore
  · rw [hcapacity]
    exact BitVec.le_refl _

/-- What the copies to a new block do. -/
structure RangeCopied (b : PQueueBox w) (m : HeapMemory V) (dst : BlockPtr)
    (r : Status × PQueueBox w × HeapMemory V) : Prop where
  box : r.2.1 = { b with copies := r.2.1.copies }
  heap : r.2.2.heap = m.heap
  requests : r.2.2.requests = m.requests
  kept : ∀ i, r.2.2.contents (b.storage, i) = m.contents (b.storage, i)
  copied : r.1 = .ok → ∀ i < b.size, r.2.2.contents (dst, i) = m.contents (b.storage, i)

theorem rangeCopied (hfaithful : env.core.policy.Faithful) {dst : BlockPtr} (hne : dst ≠ b.storage) :
    RangeCopied b m dst (b.copyRange env m dst) where
  box := rfl
  heap := rfl
  requests := rfl
  kept i := Cells.copySlots_frame _ fun j _ heq => hne (congrArg Prod.fst heq).symm
  copied hok i hi := by
    have hdst : ((List.range b.size).map fun i => (dst, i)).Nodup :=
      List.nodup_range.map fun _ _ heq => (Prod.mk.inj heq).2
    exact Cells.copySlots_copies hfaithful hdst (fun _ _ _ _ heq => hne (congrArg Prod.fst heq)) _
      hok i (List.mem_range.mpr hi)

/-- The copies change no member of the box but the count of copies. -/
theorem copyRange_cases (hfaithful : env.core.policy.Faithful) {dst : BlockPtr}
    (hne : dst ≠ b.storage) :
    ∃ st copies m', b.copyRange env m dst = (st, { b with copies := copies }, m') ∧
      RangeCopied b m dst (st, { b with copies := copies }, m') :=
  ⟨_, _, _, rfl, rangeCopied hfaithful hne⟩

/-- **Growth of a block of the heap**, by `std::realloc`. -/
theorem Inv.reallocate_dynamic (hinv : Inv env b m) (hdynamic : b.dynamicStorage = true)
    (hmore : b.capacity < newCapacity)
    (hfits : newCapacity.toNat * env.core.elemSize < 2 ^ w) :
    Reallocated env b m newCapacity (b.reallocate env m newCapacity) := by
  have hallow := hinv.allowed hdynamic
  have hheap := hinv.heap
  rw [ownBlocks_of_dynamic hdynamic] at hheap
  unfold reallocate HeapMemory.realloc
  rw [if_pos (by rw [hallow, hdynamic]; rfl)]
  by_cases hgrants : env.grants m.requests (env.bytes newCapacity) = true
  · simp only [if_pos hgrants, reduceCtorEq, if_false, if_neg hinv.storage]
    refine hinv.grown hmore rfl rfl (by rintro ⟨⟩) ?_ hinv.allowed ?_ ?_
    · rintro n (⟨⟨⟩⟩ | ⟨⟨⟩⟩)
      exact Nat.lt_succ_self _
    · -- the old block is gone, and the new one is the only one
      simp only [ownBlocks, hdynamic, if_true]
      exact (hheap.destroy_head List.not_mem_nil).construct_perm (List.Perm.refl _) List.not_mem_nil
    · intro i hi
      have hroom : (i + 1) * env.core.elemSize ≤ (env.bytes newCapacity).toNat := by
        rw [env.toNat_bytes hfits]
        exact Nat.mul_le_mul_right _ (hi.trans_le (hinv.size_le_of_lt hmore))
      exact if_pos ⟨rfl, hi, hroom⟩
  · simp only [if_neg hgrants, if_true, if_neg hinv.storage]
    refine hinv.refused (by rintro ⟨⟩) b.copies (Nat.le_succ _) ?_ fun _ => rfl
    rw [ownBlocks_of_dynamic hdynamic]
    exact hheap.access List.mem_cons_self

/-- **Growth into a block of the arena.** -/
theorem Inv.reallocate_arena (hinv : Inv env b m) (hfaithful : env.core.policy.Faithful)
    (hstatic : b.dynamicStorage = false) {arena : ℕ} (harena : b.arena = some arena)
    (hmore : b.capacity < newCapacity) :
    Reallocated env b m newCapacity (b.reallocate env m newCapacity) := by
  have hheap := hinv.heap
  unfold reallocate HeapMemory.allocate
  rw [if_neg (by rw [hstatic, Bool.and_false]; rintro ⟨⟩)]
  simp only [harena]
  by_cases hok : env.arenaAlloc arena m.requests (env.bytes newCapacity) = .ok
  swap
  · simp only [if_neg hok]
    refine hinv.refused ?_ b.copies (Nat.le_succ _) hheap fun _ => rfl
    unfold arenaStatus
    split <;> rintro ⟨⟩
  simp only [if_pos hok]
  have hne : BlockPtr.arena m.requests ≠ b.storage := fun heq =>
    (hinv.fresh m.requests (.inr heq.symm)).false
  obtain ⟨st, copies, m', heq, hcopied⟩ :=
    copyRange_cases (m := { m with requests := m.requests + 1 }) hfaithful hne
  have hlater : m.requests < m'.requests := hcopied.requests ▸ Nat.lt_succ_self _
  have hheap' : m'.heap.Holds {a | a ∈ b.ownBlocks} := hcopied.heap ▸ hheap
  rw [heq]
  by_cases hst : st ≠ .ok
  · rw [if_pos hst]
    exact hinv.refused hst _ hlater.le hheap' hcopied.kept
  · rw [if_neg hst, releaseStorage_of_static (b := { b with copies := copies }) hstatic]
    refine hinv.grown hmore rfl rfl (by rintro ⟨⟩) ?_ (by rintro ⟨⟩) ?_
      (hcopied.copied (not_not.mp hst))
    · rintro n (⟨⟨⟩⟩ | ⟨⟨⟩⟩)
      exact hlater
    · rwa [ownBlocks_of_static hstatic] at hheap'

/-- **Growth away from other storage** into a block of the heap. -/
theorem Inv.reallocate_static (hinv : Inv env b m) (hfaithful : env.core.policy.Faithful)
    (hstatic : b.dynamicStorage = false) (harena : b.arena = none)
    (hmore : b.capacity < newCapacity) :
    Reallocated env b m newCapacity (b.reallocate env m newCapacity) := by
  have hheap := hinv.heap
  have hnone := ownBlocks_of_static hstatic
  unfold reallocate HeapMemory.malloc
  rw [if_neg (by rw [hstatic, Bool.and_false]; rintro ⟨⟩)]
  simp only [harena]
  by_cases hallow : env.allowHeap = true
  swap
  · rw [if_neg hallow]
    exact hinv.refused (by rintro ⟨⟩) b.copies le_rfl hheap fun _ => rfl
  rw [if_pos hallow]
  by_cases hgrants : env.grants m.requests (env.bytes newCapacity) = true
  swap
  · simp only [if_neg hgrants, if_true]
    exact hinv.refused (by rintro ⟨⟩) b.copies (Nat.le_succ _) hheap fun _ => rfl
  simp only [if_pos hgrants, reduceCtorEq, if_false]
  have hne : BlockPtr.heap m.requests ≠ b.storage := fun heq =>
    (hinv.fresh m.requests (.inl heq.symm)).false
  -- the heap with the new block
  have hnew : (m.heap.construct (.heap m.requests) true).Holds {a | a ∈ [.heap m.requests]} := by
    rw [hnone] at hheap
    exact hheap.construct_perm (List.Perm.refl _) List.not_mem_nil
  obtain ⟨st, copies, m', heq, hcopied⟩ := copyRange_cases
    (m := { m with
      heap := m.heap.construct (.heap m.requests) true
      requests := m.requests + 1 }) hfaithful hne
  have hlater : m.requests < m'.requests := hcopied.requests ▸ Nat.lt_succ_self _
  have hnew' : m'.heap.Holds {a | a ∈ [.heap m.requests]} := hcopied.heap ▸ hnew
  rw [heq]
  by_cases hst : st ≠ .ok
  · -- the new block is freed
    rw [if_pos hst]
    refine hinv.refused hst _ hlater.le ?_ hcopied.kept
    rw [hnone]
    exact hnew'.destroy_head List.not_mem_nil
  · rw [if_neg hst, releaseStorage_of_static (b := { b with copies := copies }) hstatic]
    refine hinv.grown hmore rfl rfl (by rintro ⟨⟩) ?_ (fun _ => hallow) hnew'
      (hcopied.copied (not_not.mp hst))
    rintro n (⟨⟨⟩⟩ | ⟨⟨⟩⟩)
    exact hlater

/-- **Growth of a box**, wherever its storage is from. -/
theorem Inv.reallocate (hinv : Inv env b m) (hfaithful : env.core.policy.Faithful)
    (hmore : b.capacity < newCapacity)
    (hfits : newCapacity.toNat * env.core.elemSize < 2 ^ w) :
    Reallocated env b m newCapacity (b.reallocate env m newCapacity) := by
  cases hdynamic : b.dynamicStorage with
  | true => exact hinv.reallocate_dynamic hdynamic hmore hfits
  | false =>
    cases harena : b.arena with
    | some arena => exact hinv.reallocate_arena hfaithful hdynamic harena hmore
    | none => exact hinv.reallocate_static hfaithful hdynamic harena hmore

/-- A growth that is asked for. -/
theorem Inv.ensureCapacity (hinv : Inv env b m) (hfaithful : env.core.policy.Faithful)
    {minCapacity : BitVec w} (hfits : b.SizeFits env (some minCapacity)) :
    Reallocated env b m minCapacity (b.ensureCapacity env m minCapacity) := by
  rcases PQueueObject.ensureCapacityBy_cases (b, m) (b.reallocate env m) minCapacity
    fun _ => hinv.capacity_pos with
    ⟨-, st, hsame, hst⟩ | ⟨hgrows, hgrown⟩
  · unfold PQueueBox.ensureCapacity
    rw [hsame]
    exact ⟨hinv, .same _ _ hst⟩
  · have henough := le_growCapacity hinv.capacity_pos minCapacity
    have hmore : b.capacity < growCapacity b.capacity minCapacity := by
      rw [BitVec.lt_def]
      exact (BitVec.lt_def.mp hgrows.2).trans_le (BitVec.le_def.mp henough)
    obtain ⟨hinv', hout⟩ := hinv.reallocate hfaithful hmore (hfits _ rfl hgrows)
    unfold PQueueBox.ensureCapacity
    rw [hgrown]
    exact ⟨hinv', hout.mono henough⟩

/-- `reserve` grows in the same way. -/
theorem Inv.reserve_eq (hinv : Inv env b m) (minCapacity : BitVec w) :
    b.reserve env m minCapacity = b.ensureCapacity env m minCapacity :=
  PQueueObject.reserveBy_eq fun _ => hinv.capacity_pos

/-- A call of the core within the capacity. -/
theorem Inv.put (hinv : Inv env b m) {q : PQueue V}
    (hsize : b.capacity.toNat + 1 < 2 ^ w → q.size ≤ b.capacity.toNat) :
    Inv env (b.put m q).1 (b.put m q).2 :=
  ⟨hinv.storage, hinv.fresh, hinv.capacity_pos, hsize, hinv.allowed, hinv.heap⟩

/-- The number of elements that a call needs room for. -/
def asks (b : PQueueBox w) : Call w V → Option (BitVec w)
  | .push (some _) => some (BitVec.ofNat w (b.size + 1))
  | .reserve minCapacity => some minCapacity
  | _ => none

/-- The growth that a call begins with has the outcome that it should have. -/
def GrowthKeeps (env : PQueueEnv w V) (s : PQueueBox w × HeapMemory V) : Call w V → Prop
  | .push (some _) =>
    let minCapacity := BitVec.ofNat w (s.1.size + 1)
    let r := s.1.ensureCapacity env s.2 minCapacity
    GrowthOutcome s.1.toPQueueObject s.2 minCapacity r.1 r.2.1.toPQueueObject r.2.2
  | .reserve minCapacity =>
    let r := s.1.reserve env s.2 minCapacity
    GrowthOutcome s.1.toPQueueObject s.2 minCapacity r.1 r.2.1.toPQueueObject r.2.2
  | _ => True

/-- The bytes that a call asks for do not wrap. -/
def Fits (env : PQueueEnv w V) (s : PQueueBox w × HeapMemory V) (c : Call w V) : Prop :=
  s.1.SizeFits env (s.1.asks c)

instance (s : PQueueBox w × HeapMemory V) (c : Call w V) : Decidable (Fits env s c) :=
  inferInstanceAs (Decidable (s.1.SizeFits env (s.1.asks c)))

variable {s : PQueueBox w × HeapMemory V}

/-- A push that has room stays within the capacity. -/
theorem Inv.push_core (hinv : Inv env b m) {elem : V}
    (hroom : BitVec.ofNat w (b.size + 1) ≤ b.capacity) :
    let q := (b.core m.toObjectMemory).push (b.config env.toPQueueClass) (some elem)
    Inv env (b.put m q.2).1 (b.put m q.2).2 := by
  refine hinv.put fun hlt => ?_
  have hsize := hinv.size_le hlt
  have hadded := PQueue.size_push_le (b.config env.toPQueueClass) (b.core m.toObjectMemory) (some elem)
  rw [BitVec.le_def, BitVec.toNat_ofNat, Nat.mod_eq_of_lt (by omega)] at hroom
  exact hadded.trans hroom

/-- **Every call** keeps the box in order, and its growth has the right outcome. -/
theorem Inv.call (hinv : Inv env s.1 s.2) (hfaithful : env.core.policy.Faithful) {c : Call w V}
    (hfits : Fits env s c) :
    Inv env (call env s c).2.1 (call env s c).2.2 ∧ GrowthKeeps env s c := by
  cases c with
  | push elem =>
    cases elem with
    | none => exact ⟨hinv, trivial⟩
    | some elem =>
      have hgrowth := hinv.ensureCapacity hfaithful hfits
      refine ⟨?_, hgrowth.2⟩
      simp only [PQueueBox.call, push]
      generalize s.1.ensureCapacity env s.2 (BitVec.ofNat w (s.1.size + 1)) = r at hgrowth ⊢
      obtain ⟨st, b, m⟩ := r
      obtain ⟨hinv', hout⟩ := hgrowth
      by_cases hst : st ≠ .ok
      · simp only [if_pos hst]
        exact hinv'
      · simp only [if_neg hst]
        have hroom := hout.done (not_not.mp hst)
        have hsize : b.size = s.1.size := hout.size
        rw [← hsize] at hroom
        exact hinv'.push_core hroom
  | pop out =>
    refine ⟨hinv.put fun hlt => ?_, trivial⟩
    exact (PQueue.size_pop_le _ _ out).trans (hinv.size_le hlt)
  | reserve minCapacity =>
    have hgrowth := hinv.ensureCapacity hfaithful hfits
    rw [← hinv.reserve_eq] at hgrowth
    exact hgrowth
  | clear => exact ⟨hinv.put fun _ => Nat.zero_le _, trivial⟩

/-- The first storage, and the block of the heap that `c_flags_` tells of. -/
theorem allocateStorage_ok {memory : BlockPtr × ℕ → V} {config : PQueueBoxConfig w}
    {capacity : BitVec w} {storage : BlockPtr} {flags : ElementFlags}
    (halloc : allocateStorage env (.start memory) config capacity = (.ok (storage, flags), m)) :
    (∀ n, storage = .heap n ∨ storage = .arena n → n < m.requests) ∧
      (flags.dynamicStorage = true → env.allowHeap = true) ∧
      m.heap.Holds {a | a ∈ if flags.dynamicStorage then [storage] else []} := by
  have hempty : (HeapMemory.start memory).heap.Holds {a | a ∈ []} := Ledger.holds_nil
  unfold allocateStorage at halloc
  cases hstorage : config.storage with
  | some number =>
    simp only [hstorage] at halloc
    cases halloc
    refine ⟨?_, by rintro ⟨⟩, hempty⟩
    rintro n (⟨⟨⟩⟩ | ⟨⟨⟩⟩)
  | none =>
    cases harena : config.arena with
    | some arena =>
      simp only [hstorage, harena, HeapMemory.allocate] at halloc
      by_cases hok : env.arenaAlloc arena (HeapMemory.start memory).requests
          (env.bytes capacity) = .ok
      · simp only [if_pos hok] at halloc
        cases halloc
        refine ⟨?_, by rintro ⟨⟩, hempty⟩
        rintro n (⟨⟨⟩⟩ | ⟨⟨⟩⟩)
        exact Nat.lt_succ_self _
      · simp only [if_neg hok] at halloc
        cases halloc
    | none =>
      simp only [hstorage, harena, HeapMemory.malloc] at halloc
      split at halloc
      swap
      · cases halloc
      next hdynamic =>
      by_cases hgrants : env.grants (HeapMemory.start memory).requests (env.bytes capacity) = true
      · simp only [if_pos hgrants, reduceCtorEq, if_false] at halloc
        cases halloc
        refine ⟨?_, fun _ => (Bool.and_eq_true_iff.mp hdynamic).1,
          hempty.construct_perm (List.Perm.refl _) List.not_mem_nil⟩
        rintro n (⟨⟨⟩⟩ | ⟨⟨⟩⟩)
        exact Nat.lt_succ_self _
      · simp only [if_neg hgrants, if_true] at halloc
        cases halloc

/-- **`init`** leaves the box in order, wherever the storage comes from. -/
theorem inv_init (memory : BlockPtr × ℕ → V) {config : PQueueBoxConfig w}
    (hinit : init env (.start memory) config = (.ok b, m)) : Inv env b m := by
  unfold init at hinit
  dsimp only at hinit
  split at hinit
  · cases hinit
  generalize (if config.storage = none ∧ config.capacity = 0 then 1 else config.capacity) =
    capacity at hinit
  generalize halloc : allocateStorage env (.start memory) config capacity = r at hinit
  obtain ⟨_ | ⟨storage, flags⟩, m'⟩ := r
  · cases hinit
  obtain ⟨hfresh, hallowed, hheap⟩ := allocateStorage_ok halloc
  by_cases hinvalid : storage = .null ∨ capacity = 0
  · simp only [PQueueObject.initCore, if_pos hinvalid, ne_eq, reduceCtorEq, not_false_eq_true,
      if_true] at hinit
    cases hinit
  · simp only [PQueueObject.initCore, if_neg hinvalid, ne_eq, not_true, if_false] at hinit
    cases hinit
    rw [not_or] at hinvalid
    refine ⟨hinvalid.1, hfresh, Nat.pos_of_ne_zero fun hzero => ?_, fun _ => Nat.zero_le _, hallowed,
      hheap⟩
    exact hinvalid.2 (BitVec.eq_of_toNat_eq (hzero.trans BitVec.toNat_zero.symm))

/-- At its end the box frees its own block. -/
theorem Inv.deinit (hinv : Inv env b m) : (b.deinit env m).heap.fault = false := by
  have hheap := hinv.heap
  cases hdynamic : b.dynamicStorage with
  | false =>
    have hstatic : ∀ q : PQueue V, (b.put m q).1.dynamicStorage = false := fun _ => hdynamic
    unfold PQueueBox.deinit
    dsimp only
    rw [releaseStorage_of_static (hstatic _)]
    exact hheap.no_fault
  | true =>
    rw [ownBlocks_of_dynamic hdynamic] at hheap
    unfold PQueueBox.deinit releaseStorage
    dsimp only
    split
    · exact hheap.no_fault
    split
    · exact (hheap.destroy_head List.not_mem_nil).no_fault
    · exact hheap.no_fault

end PQueueBox

/-! ## The class -/

namespace HeapQueue

variable {s : HeapQueue w V}

/-- The number of elements that a call needs room for. -/
def asks (s : HeapQueue w V) : Call w V → Option (BitVec w)
  | .of (.push _) => some (BitVec.ofNat w (s.1.size + 1))
  | .of (.reserve minCapacity) => some minCapacity
  | _ => none

/-- The call does not reach `std::realloc`. -/
def NeverReallocates (env : PQueueEnv w V) (s : HeapQueue w V) (c : Call w V) : Prop :=
  ∀ minCapacity ∈ s.asks c, ¬ (env.allowHeap = true ∧ s.1.Grows minCapacity)

instance (s : HeapQueue w V) (c : Call w V) : Decidable (NeverReallocates env s c) :=
  match hasks : s.asks c with
  | none => isTrue (by simp [NeverReallocates, hasks])
  | some minCapacity =>
    decidable_of_iff (¬ (env.allowHeap = true ∧ s.1.Grows minCapacity))
      (by simp [NeverReallocates, hasks])

/-- The growth that a call begins with has the outcome that it should have. -/
def GrowthKeeps (env : PQueueEnv w V) (s : HeapQueue w V) : Call w V → Prop
  | .of (.push _) =>
    let minCapacity := BitVec.ofNat w (s.1.size + 1)
    let r := s.ensureCapacity env minCapacity
    GrowthOutcome s.1 s.2 minCapacity r.1 r.2.1 r.2.2
  | .of (.reserve minCapacity) =>
    let r := s.reserve env minCapacity
    GrowthOutcome s.1 s.2 minCapacity r.1 r.2.1 r.2.2
  | _ => True

/-- The queue has no block of the heap. -/
structure Static (s : HeapQueue w V) : Prop where
  owns : s.1.ownsStorage = false
  heap : s.2.heap.Holds ∅
  growable : s.1.growable = true → s.1.storage ≠ .null ∧ 0 < s.1.capacity.toNat

theorem static_default (w : ℕ) (memory : BlockPtr × ℕ → V) : Static (default w memory) :=
  ⟨rfl, Ledger.holds_empty, by rintro ⟨⟩⟩

/-- `init_from_arena` initialises the core with a block of the arena, if there is one. -/
theorem initFromArena_cases (env : PQueueEnv w V) (s : HeapQueue w V) (arena : ℕ)
    (initialCapacity : BitVec w) (growable : Bool) :
    ∃ m : HeapMemory V, m.heap = s.2.heap ∧
      ((s.initFromArena env arena initialCapacity growable).2 = (s.1, m) ∨
        ∃ storage capacity, (s.initFromArena env arena initialCapacity growable).2 =
          ((s.1.initCore storage capacity growable).2, m)) := by
  unfold initFromArena HeapMemory.allocate
  generalize (if initialCapacity = 0 then 1 else initialCapacity) = capacity
  refine ⟨{ s.2 with requests := s.2.requests + 1 }, rfl, ?_⟩
  by_cases hok : env.arenaAlloc arena s.2.requests (env.bytes capacity) = .ok
  · simp only [if_pos hok]
    exact .inr ⟨_, _, rfl⟩
  · simp only [if_neg hok]
    exact .inl trivial

/-! ### A fault of the heap stays -/

theorem reallocate_fault (env : PQueueEnv w V) (hfault : s.2.heap.fault = true) (newCapacity : BitVec w) :
    (s.reallocate env newCapacity).2.2.heap.fault = true := by
  unfold reallocate HeapMemory.realloc
  split
  · exact hfault
  by_cases hgrants : env.grants s.2.requests (env.bytes newCapacity) = true
  · simp only [if_pos hgrants, reduceCtorEq, if_false]
    apply Ledger.construct_fault
    split
    · exact hfault
    · exact Ledger.destroy_fault hfault _
  · simp only [if_neg hgrants, if_true]
    split
    · exact hfault
    · exact Ledger.access_fault hfault _

theorem ensureCapacity_fault (env : PQueueEnv w V) (hfault : s.2.heap.fault = true)
    (minCapacity : BitVec w) :
    (s.ensureCapacity env minCapacity).2.2.heap.fault = true := by
  unfold ensureCapacity PQueueObject.ensureCapacityBy
  split
  · exact hfault
  split
  · exact hfault
  dsimp only
  split
  · exact hfault
  · exact reallocate_fault env hfault _

theorem call_fault (hfault : s.2.heap.fault = true) (c : Call w V) :
    (call env s c).2.2.heap.fault = true := by
  cases c with
  | init storage capacity growable => exact hfault
  | initFromArena arena initialCapacity growable =>
    obtain ⟨m, hheap, hsame | ⟨storage, capacity, hinit⟩⟩ :=
      initFromArena_cases env s arena initialCapacity growable
    · simp only [call, hsame, hheap, hfault]
    · simp only [call, hinit, hheap, hfault]
  | of c =>
    cases c with
    | push value =>
      have hgrown := ensureCapacity_fault env hfault (BitVec.ofNat w (s.1.size + 1))
      simp only [call, emplace]
      split <;> exact hgrown
    | reserve minCapacity =>
      simp only [call, reserve, PQueueObject.reserveBy]
      split
      · exact hfault
      split
      · exact hfault
      · exact reallocate_fault env hfault _
    | _ => exact hfault

/-! ### Calls that do not reallocate -/

/-- **The first growth** reallocates storage that is not of the heap. -/
theorem Static.reallocate (hstatic : Static s) (hgrow : s.1.growable = true)
    (hallow : env.allowHeap = true) (newCapacity : BitVec w) :
    (s.reallocate env newCapacity).2.2.heap.fault = true := by
  obtain ⟨hnull, -⟩ := hstatic.growable hgrow
  unfold HeapQueue.reallocate HeapMemory.realloc
  rw [if_neg (by rw [hallow]; rintro ⟨⟩)]
  by_cases hgrants : env.grants s.2.requests (env.bytes newCapacity) = true
  · simp only [if_pos hgrants, reduceCtorEq, if_false, if_neg hnull]
    exact Ledger.construct_fault (hstatic.heap.destroy_fault (Set.notMem_empty _)) _ _
  · simp only [if_neg hgrants, if_true, if_neg hnull]
    exact hstatic.heap.access_fault (Set.notMem_empty _)

/-- A growth that does not reach the heap leaves everything as it is. -/
theorem Static.ensureCapacity_same (hstatic : Static s) {minCapacity : BitVec w}
    (hno : ¬ (env.allowHeap = true ∧ s.1.Grows minCapacity)) :
    ∃ st, s.ensureCapacity env minCapacity = (st, s) ∧
      (st = .ok → minCapacity ≤ s.1.capacity) := by
  rcases PQueueObject.ensureCapacityBy_cases s (s.reallocate env) minCapacity
    fun hgrow => (hstatic.growable hgrow).2 with
    ⟨-, hsame⟩ | ⟨hgrows, hgrown⟩
  · exact hsame
  · have hallow : env.allowHeap = false := by
      rw [← Bool.not_eq_true]
      exact fun hallow => hno ⟨hallow, hgrows⟩
    exact ⟨.unsupported, hgrown.trans (if_pos hallow), by rintro ⟨⟩⟩

/-- A growth that reaches the heap is a fault. -/
theorem Static.ensureCapacity_lost (hstatic : Static s) {minCapacity : BitVec w}
    (hallow : env.allowHeap = true) (hgrows : s.1.Grows minCapacity) :
    (s.ensureCapacity env minCapacity).2.2.heap.fault = true := by
  rcases PQueueObject.ensureCapacityBy_cases s (s.reallocate env) minCapacity
    fun hgrow => (hstatic.growable hgrow).2 with
    ⟨hnot, -⟩ | ⟨-, hgrown⟩
  · exact absurd hgrows hnot
  · exact (congrArg (fun r => r.2.2.heap.fault) hgrown).trans
      (hstatic.reallocate hgrows.1 hallow _)

/-- `reserve` grows in the same way. -/
theorem Static.reserve_eq (hstatic : Static s) (minCapacity : BitVec w) :
    s.reserve env minCapacity = s.ensureCapacity env minCapacity :=
  PQueueObject.reserveBy_eq fun hgrow => (hstatic.growable hgrow).2

/-- What `init` of the core leaves. -/
theorem Static.initCore (hstatic : Static s) (storage : BlockPtr) (capacity : BitVec w)
    (growable : Bool) {m : HeapMemory V} (hheap : m.heap = s.2.heap) :
    Static ((s.1.initCore storage capacity growable).2, m) := by
  unfold PQueueObject.initCore
  by_cases hinvalid : storage = .null ∨ capacity = 0
  · rw [if_pos hinvalid]
    exact ⟨hstatic.owns, hheap ▸ hstatic.heap, hstatic.growable⟩
  · rw [if_neg hinvalid]
    rw [not_or] at hinvalid
    refine ⟨hstatic.owns, hheap ▸ hstatic.heap, fun _ => ⟨hinvalid.1, Nat.pos_of_ne_zero ?_⟩⟩
    exact fun hzero => hinvalid.2 (BitVec.eq_of_toNat_eq (hzero.trans BitVec.toNat_zero.symm))

/-- **A call that does not reallocate** leaves the queue without a block of the heap. -/
theorem Static.call (hstatic : Static s) {c : Call w V} (hno : NeverReallocates env s c) :
    Static (call env s c).2 := by
  cases c with
  | init storage capacity growable => exact hstatic.initCore _ capacity growable rfl
  | initFromArena arena initialCapacity growable =>
    obtain ⟨m, hheap, hsame | ⟨storage, capacity, hinit⟩⟩ :=
      initFromArena_cases env s arena initialCapacity growable
    · simp only [HeapQueue.call, hsame]
      exact ⟨hstatic.owns, hheap ▸ hstatic.heap, hstatic.growable⟩
    · simp only [HeapQueue.call, hinit]
      exact hstatic.initCore storage capacity growable hheap
  | of c =>
    cases c with
    | push value =>
      obtain ⟨st, hsame, -⟩ := hstatic.ensureCapacity_same (hno _ rfl)
      simp only [HeapQueue.call, emplace, hsame]
      split
      · exact hstatic
      · exact ⟨hstatic.owns, hstatic.heap, hstatic.growable⟩
    | reserve minCapacity =>
      obtain ⟨st, hsame, -⟩ := hstatic.ensureCapacity_same (hno _ rfl)
      simp only [HeapQueue.call, hstatic.reserve_eq, hsame]
      exact hstatic
    | _ => exact ⟨hstatic.owns, hstatic.heap, hstatic.growable⟩

/-- Its growth has the right outcome. -/
theorem Static.growthKeeps (hstatic : Static s) {c : Call w V} (hno : NeverReallocates env s c) :
    GrowthKeeps env s c := by
  cases c with
  | of c =>
    cases c with
    | push value =>
      obtain ⟨st, hsame, hst⟩ := hstatic.ensureCapacity_same (hno _ rfl)
      simp only [GrowthKeeps, hsame]
      exact .same _ _ hst
    | reserve minCapacity =>
      obtain ⟨st, hsame, hst⟩ := hstatic.ensureCapacity_same (hno _ rfl)
      simp only [GrowthKeeps, hstatic.reserve_eq, hsame]
      exact .same _ _ hst
    | _ => trivial
  | _ => trivial

/-- **A call that reallocates** is a fault. -/
theorem Static.call_lost (hstatic : Static s) {c : Call w V} (hdoes : ¬ NeverReallocates env s c) :
    (HeapQueue.call env s c).2.2.heap.fault = true := by
  unfold NeverReallocates at hdoes
  push Not at hdoes
  obtain ⟨minCapacity, hasks, hallow, hgrows⟩ := hdoes
  cases c with
  | of c =>
    cases c with
    | push value =>
      obtain rfl := Option.some.inj hasks
      have hlost := hstatic.ensureCapacity_lost hallow hgrows
      simp only [HeapQueue.call, emplace]
      split <;> exact hlost
    | reserve requested =>
      obtain rfl := Option.some.inj hasks
      have hlost := hstatic.ensureCapacity_lost hallow hgrows
      simp only [HeapQueue.call, hstatic.reserve_eq]
      exact hlost
    | _ => cases hasks
  | _ => cases hasks

/-- The destructor of a queue without a block frees none. -/
theorem Static.destroy (hstatic : Static s) : (s.destroy env).heap.fault = false := by
  unfold HeapQueue.destroy
  dsimp only
  rw [if_neg]
  · exact hstatic.heap.no_fault
  · rintro ⟨howns, -⟩
    exact absurd (howns.symm.trans hstatic.owns) (by decide)

/-- A fault is still there after the destructor. -/
theorem destroy_fault (hfault : s.2.heap.fault = true) : (s.destroy env).heap.fault = true := by
  unfold HeapQueue.destroy
  dsimp only
  split
  · exact Ledger.destroy_fault hfault _
  · exact hfault

/-! ### The class without the heap -/

/-- The result of a call without the ledger of the heap. -/
def forget {α : Type*} (r : α × HeapQueue w V) :
    α × PQueueObject w × ObjectMemory (BlockPtr × ℕ) V :=
  (r.1, r.2.1, r.2.2.toObjectMemory)

theorem forget_reallocate {newCapacity : BitVec w} (hroom : s.1.size ≤ newCapacity.toNat)
    (hfits : newCapacity.toNat * env.core.elemSize < 2 ^ w) :
    forget (s.reallocate env newCapacity) =
      PQueueObject.reallocate env.toPQueueClass s.1 s.2.toObjectMemory newCapacity := by
  unfold reallocate HeapMemory.realloc PQueueObject.reallocate
  by_cases hallow : env.allowHeap = false
  · rw [if_pos hallow, if_pos hallow]
    rfl
  rw [if_neg hallow, if_neg hallow]
  by_cases hgrants : env.grants s.2.requests (env.bytes newCapacity) = true
  · have hmoved : ∀ a : BlockPtr × ℕ, (a.1 = .heap s.2.requests ∧ a.2 < s.1.size ∧
        (a.2 + 1) * env.core.elemSize ≤ (env.bytes newCapacity).toNat) ↔
        a.1 = .heap s.2.requests ∧ a.2 < s.1.size := by
      intro a
      refine ⟨fun h => ⟨h.1, h.2.1⟩, fun h => ⟨h.1, h.2, ?_⟩⟩
      rw [env.toNat_bytes hfits]
      exact Nat.mul_le_mul_right _ (h.2.trans_le hroom)
    simp only [if_pos hgrants, reduceCtorEq, if_false, hmoved]
    exact (if_pos hgrants).symm
  · simp only [if_neg hgrants, if_true]
    exact (if_neg hgrants).symm

/-- The growths of both models agree. -/
theorem forget_ensureCapacity (hsize : s.1.size ≤ s.1.capacity.toNat)
    (hpos : s.1.growable = true → 0 < s.1.capacity.toNat) {minCapacity : BitVec w}
    (hfits : s.1.SizeFits env (some minCapacity)) :
    forget (s.ensureCapacity env minCapacity) =
        PQueueObject.ensureCapacity env.toPQueueClass s.1 s.2.toObjectMemory minCapacity ∧
      forget (s.reserve env minCapacity) =
        PQueueObject.reserve env.toPQueueClass s.1 s.2.toObjectMemory minCapacity := by
  unfold ensureCapacity reserve PQueueObject.ensureCapacityBy PQueueObject.reserveBy
    PQueueObject.ensureCapacity PQueueObject.reserve
  by_cases hle : minCapacity ≤ s.1.capacity
  · simp only [if_pos hle]
    exact ⟨rfl, rfl⟩
  by_cases hfixed : s.1.growable = false
  · simp only [if_neg hle, if_pos hfixed]
    exact ⟨rfl, rfl⟩
  have hgrow := Bool.eq_true_of_not_eq_false hfixed
  have henough := le_growCapacity (hpos hgrow) minCapacity
  have hself := self_le_growCapacity (hpos hgrow) minCapacity
  have hsame := forget_reallocate (hsize.trans (BitVec.le_def.mp hself))
    (hfits _ rfl ⟨hgrow, BitVec.not_le.mp hle⟩)
  simp only [if_neg hle, if_neg hfixed, if_neg (BitVec.not_lt.mpr henough)]
  exact ⟨hsame, hsame⟩

/-- **Without the heap**, a call is that of `PQueueObject`. -/
theorem forget_call (hsize : s.1.size ≤ s.1.capacity.toNat)
    (hpos : s.1.growable = true → 0 < s.1.capacity.toNat) {c : PQueueObject.Call w V}
    (hfits : s.1.SizeFits env (s.asks (.of c))) :
    forget (call env s (.of c)) = s.1.call env.toPQueueClass s.2.toObjectMemory c := by
  cases c with
  | push value =>
    have hsame := (forget_ensureCapacity hsize hpos hfits).1
    simp only [call, emplace, PQueueObject.call, PQueueObject.emplace]
    rw [← hsame]
    unfold forget
    dsimp only
    split <;> rfl
  | reserve minCapacity =>
    have hsame := (forget_ensureCapacity hsize hpos hfits).2
    simp only [call, PQueueObject.call]
    rw [← hsame]
    rfl
  | _ => rfl

end HeapQueue

/-! ## Runs -/

/-- After the calls and the destructor, no other block was freed or reallocated, and every growth had
the outcome that it should have. -/
def HeapQueue.GrowsInOrder (env : PQueueEnv w V) (s : HeapQueue w V)
    (calls : List (HeapQueue.Call w V)) : Prop :=
  ((Mealy.final (call env) s calls).destroy env).heap.fault = false ∧
    Mealy.EveryCall (call env) (GrowthKeeps env) s calls

/-- The same for a box that has been initialised. -/
def PQueueBox.GrowsInOrder (env : PQueueEnv w V) (s : PQueueBox w × HeapMemory V)
    (calls : List (PQueueBox.Call w V)) : Prop :=
  ((Mealy.final (call env) s calls).1.deinit env (Mealy.final (call env) s calls).2).heap.fault =
      false ∧
    Mealy.EveryCall (call env) (GrowthKeeps env) s calls

/-- **The class** grows in order exactly in the runs in which it does not grow. -/
theorem HeapQueue.growsInOrder_iff (env : PQueueEnv w V) (memory : BlockPtr × ℕ → V)
    (calls : List (HeapQueue.Call w V)) :
    GrowsInOrder env (default w memory) calls ↔
      Mealy.EveryCall (call env) (NeverReallocates env) (default w memory) calls := by
  have hend : Mealy.EveryCall (call env) (NeverReallocates env) (default w memory) calls ↔
      ((Mealy.final (call env) (default w memory) calls).destroy env).heap.fault = false := by
    refine Mealy.everyCall_iff_final Static (fun s => s.2.heap.fault = true)
      (fun s => (s.destroy env).heap.fault = false) (fun s c hstatic hno => hstatic.call hno)
      (fun s c hstatic hdoes => hstatic.call_lost hdoes) (fun s c hfault => call_fault hfault c)
      (fun s hstatic => hstatic.destroy) (fun s hfault hnone => ?_) (static_default w memory) calls
    rw [destroy_fault hfault] at hnone
    cases hnone
  constructor
  · rintro ⟨hheap, -⟩
    exact hend.mpr hheap
  · intro hno
    exact ⟨hend.mp hno, hno.imp Static (fun s c hstatic h => hstatic.call h)
      (fun s c hstatic h => hstatic.growthKeeps h) (static_default w memory)⟩

/-- **The box** grows in order in every run. -/
theorem PQueueBox.growsInOrder {b : PQueueBox w} {m : HeapMemory V}
    (hfaithful : env.core.policy.Faithful) (hinv : Inv env b m) {calls : List (PQueueBox.Call w V)}
    (hfits : Mealy.EveryCall (call env) (Fits env) (b, m) calls) :
    GrowsInOrder env (b, m) calls := by
  have hfinal := hfits.final_invariant (fun s => Inv env s.1 s.2)
    (fun s c hinv h => (hinv.call hfaithful h).1) hinv
  exact ⟨hfinal.deinit, hfits.imp (fun s => Inv env s.1 s.2)
    (fun s c hinv h => (hinv.call hfaithful h).1) (fun s c hinv h => (hinv.call hfaithful h).2) hinv⟩

/-- **When a growing queue touches its own blocks only**: the C box does so in every run after an
initialisation with storage from anywhere, and the class in exactly the runs in which no call makes it
grow. -/
theorem growth_own_blocks_iff (cls box : PQueueEnv w V) (hfaithful : box.core.policy.Faithful)
    (memory : BlockPtr × ℕ → V) (calls : List (HeapQueue.Call w V)) (config : PQueueBoxConfig w)
    (b : PQueueBox w) (m : HeapMemory V)
    (hinit : PQueueBox.init box (.start memory) config = (.ok b, m))
    (boxCalls : List (PQueueBox.Call w V))
    (hfits : Mealy.EveryCall (PQueueBox.call box) (PQueueBox.Fits box) (b, m) boxCalls) :
    (HeapQueue.GrowsInOrder cls (.default w memory) calls ↔
        Mealy.EveryCall (HeapQueue.call cls) (HeapQueue.NeverReallocates cls) (.default w memory)
          calls) ∧
      PQueueBox.GrowsInOrder box (b, m) boxCalls :=
  ⟨HeapQueue.growsInOrder_iff cls memory calls,
    PQueueBox.growsInOrder hfaithful (PQueueBox.inv_init memory hinit) hfits⟩

/-- Words of 64 bits compared as numbers, in a heap that grants every request. -/
def wordQueue : PQueueEnv 64 ℕ where
  core :=
    { policy := .bytewise ℕ
      needsDestroy := false
      typed := true
      elemSize := 8
      lessThan := fun a b => a < b
      capacity := 1
      growable := true
      scratch := 0
      capacity_lt := by decide }
  allowHeap := true
  grants _ _ := true
  arenaAlloc _ _ _ := .ok

/-- The same queue of the C interface. -/
def wordQueueBox : PQueueEnv 64 ℕ := { wordQueue with core := { wordQueue.core with typed := false } }

/-- An array of one word that belongs to the caller. -/
def oneWord : PQueueBoxConfig 64 where
  capacity := 1
  storage := some 0
  storageBytes := 8
  arena := none
  flags := .cleared
  growable := true

/-- A class that keeps within its capacity, and a box that grows into the heap and then there. -/
theorem growth_own_blocks_iff_words :
    ∃ b m, PQueueBox.init wordQueueBox (.start fun _ => 0) oneWord = (.ok b, m) ∧
      HeapQueue.GrowsInOrder wordQueue (.default 64 fun _ => 0)
        [.init (some 0) 2 true, .of (.push 3), .of (.push 1), .of (.reserve 2)] ∧
      PQueueBox.GrowsInOrder wordQueueBox (b, m)
        [.push (some 3), .push (some 1), .push (some 2), .reserve 5, .pop none] := by
  refine ⟨_, _, rfl, ?_⟩
  obtain ⟨hiff, hbox⟩ := growth_own_blocks_iff wordQueue wordQueueBox
    (ElementPolicy.nonFailing_bytewise ℕ).faithful (fun _ => 0)
    [.init (some 0) 2 true, .of (.push 3), .of (.push 1), .of (.reserve 2)] oneWord _ _ rfl
    [.push (some 3), .push (some 1), .push (some 2), .reserve 5, .pop none] (by decide +kernel)
  exact ⟨hiff.mpr (by decide +kernel), hbox⟩

/-- **The first growth of the class reallocates storage that is not of the heap**: an array of its
caller, or a block of an arena. -/
theorem reallocates_other_storage :
    ¬ HeapQueue.GrowsInOrder wordQueue (.default 64 fun _ => 0)
        [.init (some 0) 1 true, .of (.push 1), .of (.push 2)] ∧
      ¬ HeapQueue.GrowsInOrder wordQueue (.default 64 fun _ => 0)
        [.initFromArena 0 1 true, .of (.reserve 2)] :=
  ⟨fun h => absurd h.1 (by decide +kernel), fun h => absurd h.1 (by decide +kernel)⟩

end Memkit
