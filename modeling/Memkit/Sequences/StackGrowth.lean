import Memkit.Sequences.StackBox
import Memkit.Sequences.VectorBlocks

/-! # Pushes and growth that fail

A push or a `reserve` of the stack may fail in the allocator, in a copy of an element to the new
block, or in the copy of the new element. The elements stay in every case. The storage kind is set to
that of the heap before the elements are copied there, so when such a copy fails it is wrong.

* **`KeepsTag`** — no call stops in the middle of a growth into the heap.
* **`Outcome`** — what a push or a `reserve` should do, whether it fails or not.
* **`growth_outcome_iff`** — in every run. -/

namespace Memkit

namespace VectorCore

variable {w : ℕ} {V : Type*} {cfg : VectorConfig w V} {s t : VectorCore w} {m m' : VectorMemory V}

/-- The capacity that a push asks `grow` for, of a growable vector. -/
def pushAsks (s : VectorCore w) : Option V → Option (BitVec w)
  | none => none
  | some _ => if s.growable ∧ s.size = s.capacity then some (s.size + 1) else none

/-- The capacity that `reserve` asks `grow` for. -/
def reserveAsks (s : VectorCore w) (minCapacity : BitVec w) : Option (BitVec w) :=
  if s.growable ∧ s.capacity < minCapacity then some minCapacity else none

/-- The size in bytes of the block asked for does not wrap. -/
def SizeFits (cfg : VectorConfig w V) (s : VectorCore w) (asked : Option (BitVec w)) : Prop :=
  ∀ minCapacity ∈ asked,
    (growCapacity s.capacity minCapacity).toNat * cfg.elemSize.toNat < 2 ^ w

/-- The growth asked for does not lose the tag. -/
def GrowsWhole (cfg : VectorConfig w V) (s : VectorCore w) (m : VectorMemory V)
    (asked : Option (BitVec w)) : Prop :=
  ∀ minCapacity ∈ asked, ¬ LosesTag cfg s m (growCapacity s.capacity minCapacity)

instance (cfg : VectorConfig w V) (s : VectorCore w) :
    ∀ asked, Decidable (SizeFits cfg s asked)
  | none => isTrue nofun
  | some minCapacity =>
    decidable_of_iff ((growCapacity s.capacity minCapacity).toNat * cfg.elemSize.toNat < 2 ^ w)
      (by simp [SizeFits])

instance (cfg : VectorConfig w V) (s : VectorCore w) (m : VectorMemory V) :
    ∀ asked, Decidable (GrowsWhole cfg s m asked)
  | none => isTrue nofun
  | some minCapacity =>
    decidable_of_iff (¬ LosesTag cfg s m (growCapacity s.capacity minCapacity))
      (by simp [GrowsWhole])

/-- The elements are as before, and the storage kind, which is as before if the storage is, describes
the storage. -/
structure Kept (s : VectorCore w) (m : VectorMemory V) (t : VectorCore w) (m' : VectorMemory V) :
    Prop where
  size : t.size = s.size
  elements : t.elements m' = s.elements m
  describes : Describes t
  kind : t.storage = s.storage → t.storageKind = s.storageKind

/-- A call that fails keeps the elements and the tag, and one that is ok adds to the elements. -/
structure Outcome (s : VectorCore w) (m : VectorMemory V) (added : List V)
    (r : Status × VectorCore w × VectorMemory V) : Prop where
  failed : r.1 ≠ .ok → Kept s m r.2.1 r.2.2
  done : r.1 = .ok → r.2.1.elements r.2.2 = s.elements m ++ added

/-! ## Growth -/

/-- Nothing has changed. -/
theorem Sound.kept (h : Sound cfg s m) : Kept s m s m := ⟨rfl, rfl, h.describes, fun _ => rfl⟩

/-- A growth that is asked for reaches `reallocate`. -/
theorem Sound.grow_eq (h : Sound cfg s m) (hgrow : s.growable = true) (minCapacity : BitVec w) :
    s.grow cfg some m minCapacity =
      s.reallocate cfg some m (growCapacity s.capacity minCapacity) := by
  have henough := le_growCapacity (h.growable hgrow).2.1 minCapacity
  rw [grow, if_neg (by rw [hgrow]; rintro ⟨⟩)]
  dsimp only
  rw [if_neg (BitVec.not_lt.mpr henough)]

/-- Growth to the capacity that `grow` computes. -/
theorem Sound.grows (h : Sound cfg s m) (hgrow : s.growable = true) {minCapacity : BitVec w}
    (hfit : (growCapacity s.capacity minCapacity).toNat * cfg.elemSize.toNat < 2 ^ w) :
    Grows cfg s (growCapacity s.capacity minCapacity) := by
  obtain ⟨-, hpos, -⟩ := h.growable hgrow
  have hself := self_le_growCapacity hpos minCapacity
  refine ⟨hgrow, BitVec.le_trans h.size_le hself, ?_, hfit⟩
  rw [BitVec.le_def] at hself
  omega

/-- What is left when the tag is lost. -/
theorem Sound.not_kept (h : Sound cfg s m) (hheap : s.storageKind.heap = false) :
    ¬ Kept s m { s with storageKind := .ownsHeap } m' := by
  intro hkept
  have hblock := hkept.describes.heap
  rw [← h.describes.heap, hheap] at hblock
  cases hblock

/-- **`reserve`** has the outcome that it should have exactly if it does not lose the tag. -/
theorem Sound.reserve_outcome (htyped : cfg.typed = false) (hfaithful : cfg.policy.Faithful)
    (hreal : RealBlocks cfg) (h : Sound cfg s m) (minCapacity : BitVec w)
    (hfit : SizeFits cfg s (s.reserveAsks minCapacity)) :
    (Outcome s m [] (s.reserve cfg some m minCapacity) ↔
        GrowsWhole cfg s m (s.reserveAsks minCapacity)) ∧
      (GrowsWhole cfg s m (s.reserveAsks minCapacity) →
        Sound cfg (s.reserve cfg some m minCapacity).2.1
          (s.reserve cfg some m minCapacity).2.2) := by
  unfold reserve
  by_cases hle : minCapacity ≤ s.capacity
  · have hasks : s.reserveAsks minCapacity = none :=
      if_neg fun hasked => absurd hasked.2 (BitVec.not_lt.mpr hle)
    rw [if_pos hle, hasks]
    refine ⟨iff_of_true ⟨fun hnot => absurd rfl hnot, fun _ => ?_⟩ nofun, fun _ => h⟩
    exact (List.append_nil _).symm
  rw [if_neg hle]
  -- a vector of fixed capacity refuses and changes nothing
  by_cases hfixed : s.growable = false
  · have hasks : s.reserveAsks minCapacity = none :=
      if_neg fun hasked => absurd hasked.1 (by rw [hfixed]; nofun)
    rw [if_pos hfixed, hasks]
    exact ⟨iff_of_true ⟨fun _ => h.kept, nofun⟩ nofun, fun _ => h⟩
  rw [if_neg hfixed]
  have hgrow := Bool.eq_true_of_not_eq_false hfixed
  have hasks : s.reserveAsks minCapacity = some minCapacity :=
    if_pos ⟨hgrow, BitVec.not_le.mp hle⟩
  rw [hasks] at hfit ⊢
  have hgrows := h.grows hgrow (hfit _ rfl)
  rw [h.grow_eq hgrow]
  by_cases hloses : LosesTag cfg s m (growCapacity s.capacity minCapacity)
  · -- the copy to the heap stops
    obtain ⟨st, m', heq, hst⟩ := reallocate_loses h hgrows hloses
    rw [heq]
    refine ⟨iff_of_false (fun hout => ?_) fun hwhole => hwhole _ rfl hloses,
      fun hwhole => absurd hloses (hwhole _ rfl)⟩
    exact h.not_kept hloses.1 (hout.failed hst)
  · have hwhole : GrowsWhole cfg s m (some minCapacity) := by
      rintro _ ⟨⟩
      exact hloses
    -- every other growth is refused as a whole or done as a whole
    have hgrowth := growth_reallocate htyped hfaithful hreal h hgrows hloses
    generalize s.reallocate cfg some m (growCapacity s.capacity minCapacity) = r at hgrowth ⊢
    cases hgrowth with
    | refused hst hsound helements =>
      refine ⟨iff_of_true ⟨fun _ => ?_, fun hok => absurd hok hst⟩ hwhole, fun _ => hsound⟩
      exact ⟨rfl, helements, h.describes, fun _ => rfl⟩
    | grown hgrown =>
      refine ⟨iff_of_true ⟨fun hnot => absurd rfl hnot, fun _ => ?_⟩ hwhole, fun _ => hgrown.sound⟩
      rw [List.append_nil]
      exact hgrown.elements

/-! ## Adding an element -/

/-- What a push does when there is room. -/
def addElem (cfg : VectorConfig w V) (t : VectorCore w) (m : VectorMemory V) (elem : V) :
    Status × VectorCore w × VectorMemory V :=
  let (copySt, cells) := construct cfg m.cells (t.slotAt t.size.toNat) elem
  let m := { m with cells := cells }
  if copySt ≠ .ok then (copySt, t, m) else (.ok, { t with size := t.size + 1 }, m)

/-- **The copy of the new element** leaves the others alone. -/
theorem Sound.addElem (htyped : cfg.typed = false) (hfaithful : cfg.policy.Faithful)
    (h : Sound cfg s m) (hroom : s.size.toNat < s.capacity.toNat) (elem : V) :
    Sound cfg (s.addElem cfg m elem).2.1 (s.addElem cfg m elem).2.2 ∧
      ((s.addElem cfg m elem).1 ≠ .ok →
        (s.addElem cfg m elem).2.1 = s ∧ s.elements (s.addElem cfg m elem).2.2 = s.elements m) ∧
      ((s.addElem cfg m elem).1 = .ok →
        (s.addElem cfg m elem).2.1.elements (s.addElem cfg m elem).2.2 =
          s.elements m ++ [elem]) := by
  have hcopied := Cells.copied cfg.policy m.cells (s.slotAt s.size.toNat) elem
  have hconstruct : construct cfg m.cells (s.slotAt s.size.toNat) elem =
      m.cells.copyConstruct cfg.policy (s.slotAt s.size.toNat) elem := by
    rw [construct, if_neg (by simp [htyped])]
  unfold VectorCore.addElem
  rw [hconstruct]
  generalize m.cells.copyConstruct cfg.policy (s.slotAt s.size.toNat) elem = r at hcopied ⊢
  obtain ⟨st, cells⟩ := r
  -- the slot after the last element is none of theirs
  have hothers : ∀ i < s.size.toNat,
      cells.contents (s.storage, i) = m.cells.contents (s.storage, i) := by
    intro i hi
    refine hcopied.frame _ fun heq => ?_
    obtain rfl := (Prod.mk.inj heq).2
    exact hi.false
  by_cases hst : st ≠ .ok
  · simp only [if_pos hst]
    exact ⟨h.later le_rfl, fun _ => ⟨trivial, elements_congr rfl rfl rfl hothers⟩,
      fun hok => absurd hok hst⟩
  · simp only [if_neg hst]
    rw [not_not] at hst
    have hsucc := WrapCounter.toNat_succ hroom
    refine ⟨⟨⟨h.describes.heap, h.describes.arena⟩, h.allowed, h.fresh, h.growable, h.capacity_lt,
      ?_⟩, fun hnot => absurd rfl hnot, fun _ => ?_⟩
    · show s.size + 1 ≤ s.capacity
      rw [BitVec.le_def, hsucc]
      exact hroom
    · show (List.range (s.size + 1).toNat).map _ = _
      rw [hsucc, List.range_succ, List.map_append, List.map_singleton]
      congr 1
      · exact List.map_congr_left fun i hi => hothers i (List.mem_range.mp hi)
      · exact congrArg (fun v => [v]) (hcopied.value hst hfaithful)

/-- **`push_back`** grows if it must, and adds. -/
theorem pushBack_eq (cfg : VectorConfig w V) (s : VectorCore w) (m : VectorMemory V) (elem : V)
    {r : Status × VectorCore w × VectorMemory V}
    (hr : (if s.size = s.capacity then s.grow cfg some m (s.size + 1) else (.ok, s, m)) = r) :
    s.pushBack cfg some m (some elem) = if r.1 ≠ .ok then r else r.2.1.addElem cfg r.2.2 elem := by
  rw [pushBack, hr]
  rfl

/-- An outcome after a growth that is ok. -/
theorem Sound.outcome_of_grown (htyped : cfg.typed = false) (hfaithful : cfg.policy.Faithful)
    (h : Sound cfg t m') (hroom : t.size.toNat < t.capacity.toNat) (hkept : Kept s m t m')
    (elem : V) :
    Outcome s m [elem] (t.addElem cfg m' elem) ∧
      Sound cfg (t.addElem cfg m' elem).2.1 (t.addElem cfg m' elem).2.2 := by
  obtain ⟨hsound, hfailed, hdone⟩ := h.addElem htyped hfaithful hroom elem
  refine ⟨⟨fun hst => ?_, fun hok => ?_⟩, hsound⟩
  · obtain ⟨hcore, helements⟩ := hfailed hst
    rw [hcore]
    exact ⟨hkept.size, helements.trans hkept.elements, hkept.describes, hkept.kind⟩
  · rw [hdone hok, hkept.elements]

/-- The size of a full vector can be counted up: its block is smaller than half of the memory. -/
theorem Sound.toNat_size_succ (h : Sound cfg s m) (hpos : 0 < s.capacity.toNat)
    (hfull : s.size = s.capacity) : (s.size + 1).toNat = s.size.toNat + 1 := by
  have hlt := h.capacity_lt
  have hcapacity := s.capacity.isLt
  have hword : s.size + 1 = BitVec.ofNat w (s.size.toNat + 1) := by
    rw [← WrapCounter.ofNat_succ, BitVec.ofNat_toNat, BitVec.setWidth_eq]
  rw [hword, BitVec.toNat_ofNat, hfull]
  apply Nat.mod_eq_of_lt
  rcases Nat.eq_zero_or_pos w with rfl | hw
  · rw [pow_zero] at hcapacity
    omega
  · have hdouble : 2 ^ w = 2 * 2 ^ (w - 1) := by
      rw [← pow_succ', Nat.sub_add_cancel hw]
    omega

/-- **`push_back`**, likewise. -/
theorem Sound.pushBack_outcome (htyped : cfg.typed = false) (hfaithful : cfg.policy.Faithful)
    (hreal : RealBlocks cfg) (h : Sound cfg s m) (elem : Option V)
    (hfit : SizeFits cfg s (s.pushAsks elem)) :
    (Outcome s m elem.toList (s.pushBack cfg some m elem) ↔
        GrowsWhole cfg s m (s.pushAsks elem)) ∧
      (GrowsWhole cfg s m (s.pushAsks elem) →
        Sound cfg (s.pushBack cfg some m elem).2.1 (s.pushBack cfg some m elem).2.2) := by
  cases elem with
  | none => exact ⟨iff_of_true ⟨fun _ => h.kept, nofun⟩ nofun, fun _ => h⟩
  | some elem =>
    rw [pushBack_eq cfg s m elem rfl]
    by_cases hfull : s.size = s.capacity
    swap
    · -- there is room
      have hasks : s.pushAsks (some elem) = none := if_neg fun hasked => hfull hasked.2
      have hroom : s.size.toNat < s.capacity.toNat :=
        lt_of_le_of_ne h.size_le fun heq => hfull (BitVec.eq_of_toNat_eq heq)
      obtain ⟨hout, hsound⟩ := h.outcome_of_grown htyped hfaithful hroom h.kept elem
      rw [if_neg hfull, if_neg (not_not.mpr rfl), hasks]
      exact ⟨iff_of_true hout nofun, fun _ => hsound⟩
    rw [if_pos hfull]
    -- a full vector of fixed capacity refuses and changes nothing
    by_cases hfixed : s.growable = false
    · have hasks : s.pushAsks (some elem) = none :=
        if_neg fun hasked => absurd hasked.1 (by rw [hfixed]; nofun)
      have hrefused : s.grow cfg some m (s.size + 1) = (.full, s, m) := if_pos hfixed
      rw [hrefused, hasks, if_pos nofun]
      exact ⟨iff_of_true ⟨fun _ => h.kept, nofun⟩ nofun, fun _ => h⟩
    -- a full vector that may grow asks for one slot more than it has elements
    have hgrow := Bool.eq_true_of_not_eq_false hfixed
    have hasks : s.pushAsks (some elem) = some (s.size + 1) := if_pos ⟨hgrow, hfull⟩
    rw [hasks] at hfit ⊢
    have hgrows := h.grows hgrow (hfit _ rfl)
    have hpos := (h.growable hgrow).2.1
    have hmore := le_growCapacity hpos (s.size + 1)
    rw [h.grow_eq hgrow]
    by_cases hloses : LosesTag cfg s m (growCapacity s.capacity (s.size + 1))
    · -- the copy to the heap stops
      obtain ⟨st, m', heq, hst⟩ := reallocate_loses h hgrows hloses
      rw [heq, if_pos hst]
      refine ⟨iff_of_false (fun hout => ?_) fun hwhole => hwhole _ rfl hloses,
        fun hwhole => absurd hloses (hwhole _ rfl)⟩
      exact h.not_kept hloses.1 (hout.failed hst)
    · have hwhole : GrowsWhole cfg s m (some (s.size + 1)) := by
        rintro _ ⟨⟩
        exact hloses
      -- every other growth is refused as a whole or done as a whole
      have hgrowth := growth_reallocate htyped hfaithful hreal h hgrows hloses
      generalize s.reallocate cfg some m (growCapacity s.capacity (s.size + 1)) = r at hgrowth ⊢
      cases hgrowth with
      | refused hst hsound helements =>
        rw [if_pos hst]
        refine ⟨iff_of_true ⟨fun _ => ?_, fun hok => absurd hok hst⟩ hwhole, fun _ => hsound⟩
        exact ⟨rfl, helements, h.describes, fun _ => rfl⟩
      | @grown t m' hgrown =>
        have hsucc := h.toNat_size_succ hpos hfull
        have hroom : t.size.toNat < t.capacity.toNat := by
          rw [hgrown.size, hgrown.capacity]
          rw [BitVec.le_def, hsucc] at hmore
          exact hmore
        have hkept : Kept s m t m' :=
          ⟨hgrown.size, hgrown.elements, hgrown.sound.describes, hgrown.kind⟩
        obtain ⟨hout, hsound⟩ := hgrown.sound.outcome_of_grown htyped hfaithful hroom hkept elem
        rw [if_neg (not_not.mpr rfl)]
        exact ⟨iff_of_true hout hwhole, fun _ => hsound⟩

/-! ## The other calls -/

/-- Another size within the capacity. -/
theorem Sound.resize (h : Sound cfg s m) {size : BitVec w} (hsize : size ≤ s.capacity)
    (cells : Cells (BlockPtr × ℕ) V) :
    Sound cfg { s with size := size } { m with cells := cells } :=
  ⟨⟨h.describes.heap, h.describes.arena⟩, h.allowed, h.fresh, h.growable, h.capacity_lt, hsize⟩

theorem sound_default (cfg : VectorConfig w V) (m : VectorMemory V) :
    Sound cfg (VectorCore.default w) m where
  describes := ⟨rfl, nofun⟩
  allowed := nofun
  fresh := nofun
  growable := nofun
  capacity_lt := by
    show (0 : BitVec w).toNat < 2 ^ (w - 1)
    rw [show (0 : BitVec w).toNat = 0 from BitVec.toNat_zero]
    exact Nat.two_pow_pos _
  size_le := BitVec.le_refl _

theorem Sound.clear (h : Sound cfg s m) : Sound cfg (s.clear cfg m).1 (s.clear cfg m).2 := by
  unfold VectorCore.clear
  split
  · exact h
  · exact h.resize (VectorObject.zero_le_word _) _

theorem Sound.popBack (htyped : cfg.typed = false) (h : Sound cfg s m) (out : Option V) :
    Sound cfg (s.popBack cfg m out).2.1 (s.popBack cfg m out).2.2 := by
  unfold VectorCore.popBack
  by_cases hempty : s.size = 0
  · rw [if_pos hempty]
    exact h
  have hpred := WrapCounter.toNat_pred hempty
  have hle := h.size_le
  have hless : s.size - 1 ≤ s.capacity := by
    rw [BitVec.le_def] at hle ⊢
    omega
  rw [if_neg hempty]
  cases out with
  | none => exact h.resize hless _
  | some out =>
    simp only [htyped, Bool.false_eq_true, if_false]
    split
    · -- the size goes back up
      have hback : s.size - 1 + 1 = s.size := BitVec.sub_add_cancel _ _
      rw [hback]
      exact h.resize hle _
    · exact h.resize hless _

theorem Sound.setAt (h : Sound cfg s m) (index : BitVec w) (elem : Option V) :
    Sound cfg s (s.setAt cfg m index elem).2 := by
  unfold VectorCore.setAt
  cases elem with
  | none => exact h
  | some elem =>
    dsimp only
    split
    · exact h
    split
    · exact h.later le_rfl
    · exact h.later le_rfl

end VectorCore

namespace StackBox

open VectorCore

variable {w : ℕ} {V : Type*} {cfg : VectorConfig w V} {m : VectorMemory V}

/-- The sizes in bytes that a call asks for do not wrap, and storage of the caller is as large as the
configuration says. -/
def Fits (cfg : VectorConfig w V) (s : StackBox w × VectorMemory V) : Call w V → Prop
  | .init config =>
    config.capacity.toNat * cfg.elemSize.toNat < 2 ^ w ∧
      (config.storage ≠ none → config.storageBytes.toNat < 2 ^ (w - 1))
  | .push elem => SizeFits cfg s.1.core (s.1.core.pushAsks elem)
  | .reserve minCapacity => SizeFits cfg s.1.core (s.1.core.reserveAsks minCapacity)
  | _ => True

/-- The call does not stop in the middle of a growth into the heap. -/
def KeepsTag (cfg : VectorConfig w V) (s : StackBox w × VectorMemory V) : Call w V → Prop
  | .push elem => GrowsWhole cfg s.1.core s.2 (s.1.core.pushAsks elem)
  | .reserve minCapacity => GrowsWhole cfg s.1.core s.2 (s.1.core.reserveAsks minCapacity)
  | _ => True

instance (cfg : VectorConfig w V) (s : StackBox w × VectorMemory V) :
    ∀ c, Decidable (Fits cfg s c)
  | .init _ => inferInstanceAs (Decidable (_ ∧ _))
  | .push _ | .reserve _ => inferInstanceAs (Decidable (SizeFits _ _ _))
  | .deinit | .pop _ | .setAt _ _ | .clear => isTrue trivial

instance (cfg : VectorConfig w V) (s : StackBox w × VectorMemory V) :
    ∀ c, Decidable (KeepsTag cfg s c)
  | .push _ | .reserve _ => inferInstanceAs (Decidable (GrowsWhole _ _ _ _))
  | .init _ | .deinit | .pop _ | .setAt _ _ | .clear => isTrue trivial

/-- The storage that `init` obtains. -/
structure Provided (cfg : VectorConfig w V) (m : VectorMemory V) (bytes : BitVec w)
    (storage : BlockPtr) (kind : StorageKind) : Prop where
  heap : kind.heap = storage.isHeap
  arena : kind.arena = true → storage.isArena = true
  allowed : kind.heap = true → cfg.allowHeap = true
  fresh : ∀ n, storage = .heap n → n < m.requests
  real : bytes.toNat < 2 ^ (w - 1)

/-- `allocate_element_storage`, of a size that the caller's storage really has. -/
theorem allocateElementStorage_ok (hreal : RealBlocks cfg) {config : ElementConfig w}
    {m' : VectorMemory V} {storage : BlockPtr} {kind : StorageKind} {flags : ElementFlags}
    (hgiven : config.storage ≠ none → (cfg.elemSize * config.capacity).toNat < 2 ^ (w - 1))
    (h : allocateElementStorage cfg m config = (.ok (storage, kind, flags), m')) :
    Provided cfg m' (cfg.elemSize * config.capacity) storage kind := by
  unfold allocateElementStorage at h
  dsimp only at h
  cases hstorage : config.storage with
  | some number =>
    rw [hstorage] at h
    cases h
    exact ⟨rfl, by rintro ⟨⟩, by rintro ⟨⟩, by rintro _ ⟨⟩, hgiven (by rw [hstorage]; rintro ⟨⟩)⟩
  | none =>
    rw [hstorage] at h
    dsimp only at h
    cases harena : config.arena with
    | some arena =>
      rw [harena] at h
      simp only [VectorMemory.allocate] at h
      cases hanswer : cfg.arenaAllocate arena m.requests (cfg.elemSize * config.capacity) with
      | error st =>
        rw [hanswer] at h
        cases h
      | ok number =>
        rw [hanswer] at h
        cases h
        exact ⟨rfl, fun _ => rfl, by rintro ⟨⟩, by rintro _ ⟨⟩, hreal.arena _ _ _ _ hanswer⟩
    | none =>
      rw [harena] at h
      dsimp only at h
      split at h
      · next hallow =>
        rw [Bool.and_eq_true] at hallow
        unfold VectorMemory.malloc at h
        by_cases hgrants : cfg.grants m.requests (cfg.elemSize * config.capacity) = true
        · simp only [if_pos hgrants, reduceCtorEq, if_false] at h
          cases h
          refine ⟨rfl, by rintro ⟨⟩, fun _ => hallow.1, ?_, hreal.heap _ _ hgrants⟩
          rintro n hn
          obtain rfl := BlockPtr.heap.inj hn
          exact Nat.lt_succ_self _
        · simp only [if_neg hgrants, if_true] at h
          cases h
      · cases h

/-- The capacity that `init` takes. -/
theorem capacity_of_valid {elemSize : BitVec w} {config : ElementConfig w}
    (hvalid : validateElementConfig elemSize (some config) = .ok)
    (hfits : config.capacity.toNat * elemSize.toNat < 2 ^ w)
    (hbytes : config.storage ≠ none → config.storageBytes.toNat < 2 ^ (w - 1))
    {capacity : BitVec w}
    (hcapacity : (if config.storage = none ∧ config.capacity = 0 then 1
      else config.capacity) = capacity) :
    0 < elemSize.toNat ∧ 0 < capacity.toNat ∧ capacity.toNat * elemSize.toNat < 2 ^ w ∧
      (config.storage ≠ none → (elemSize * capacity).toNat < 2 ^ (w - 1)) := by
  obtain ⟨helem, hgiven⟩ := validateElementConfig_ok hvalid
  have hpos : 0 < elemSize.toNat :=
    Nat.pos_of_ne_zero fun hzero => helem (BitVec.eq_of_toNat_eq hzero)
  refine ⟨hpos, ?_⟩
  by_cases hdefault : config.storage = none ∧ config.capacity = 0
  · -- the configuration leaves the capacity open
    rw [if_pos hdefault] at hcapacity
    subst hcapacity
    have helt := elemSize.isLt
    have hone : (1 : BitVec w).toNat = 1 := by
      show 1 % 2 ^ w = 1
      exact Nat.mod_eq_of_lt (by omega)
    rw [hone, Nat.one_mul]
    exact ⟨Nat.one_pos, helt, fun hsome => absurd hdefault.1 hsome⟩
  · rw [if_neg hdefault] at hcapacity
    subst hcapacity
    refine ⟨Nat.pos_of_ne_zero fun hzero => ?_, hfits, fun hsome => ?_⟩
    · have hnone : config.capacity = 0 := BitVec.eq_of_toNat_eq hzero
      by_cases hstorage : config.storage = none
      · exact hdefault ⟨hstorage, hnone⟩
      · exact (hgiven hstorage).1 hnone
    · exact (BitVec.le_def.mp (hgiven hsome).2).trans_lt (hbytes hsome)

/-- `stack_init` leaves the core sound. -/
theorem sound_init (hreal : RealBlocks cfg) (config : StackConfig w)
    (hfits : config.capacity.toNat * cfg.elemSize.toNat < 2 ^ w)
    (hbytes : config.storage ≠ none → config.storageBytes.toNat < 2 ^ (w - 1)) :
    Sound cfg (init cfg m config).2.1.core (init cfg m config).2.2 := by
  unfold init
  dsimp only
  split
  · exact sound_default cfg m
  next hvalid =>
  generalize hcapacity : (if config.storage = none ∧ config.capacity = 0 then 1
    else config.capacity) = capacity
  obtain ⟨helem, hpos, hfit, hgiven⟩ :=
    capacity_of_valid (not_not.mp hvalid) hfits hbytes hcapacity
  have hprovided : ∀ storage kind flags m',
      allocateElementStorage cfg m { config.toElementConfig with capacity := capacity } =
        (.ok (storage, kind, flags), m') →
      Provided cfg m' (cfg.elemSize * capacity) storage kind :=
    fun _ _ _ _ h => allocateElementStorage_ok hreal hgiven h
  generalize allocateElementStorage cfg m
    { config.toElementConfig with capacity := capacity } = r at hprovided ⊢
  obtain ⟨result, m'⟩ := r
  cases result with
  | error st => exact sound_default cfg m'
  | ok provided =>
    obtain ⟨storage, kind, flags⟩ := provided
    obtain ⟨hheap, harena, hallowed, hfresh, hreal⟩ := hprovided _ _ _ _ rfl
    dsimp only at hreal ⊢
    rw [BitVec.mul_comm] at hreal
    rcases VectorObject.init_cases cfg { VectorCore.default w with storageKind := kind } storage
      capacity config.growable with hsame | ⟨hnull, -, hok⟩
    · rw [hsame]
      exact sound_default cfg _
    · rw [hok]
      exact ⟨⟨hheap, harena⟩, hallowed, hfresh, fun _ => ⟨hnull, hpos, helem⟩,
        capacity_lt_of_real helem hfit hreal, VectorObject.zero_le_word _⟩

/-! ## Runs -/

/-- **A call that keeps the tag** leaves the core sound. -/
theorem sound_call (htyped : cfg.typed = false) (hfaithful : cfg.policy.Faithful)
    (hreal : RealBlocks cfg) {s : StackBox w × VectorMemory V} (h : Sound cfg s.1.core s.2)
    (c : Call w V) (hfit : Fits cfg s c) (hkeeps : KeepsTag cfg s c) :
    Sound cfg (call cfg s c).2.1.core (call cfg s c).2.2 := by
  cases c with
  | init config => exact sound_init hreal config hfit.1 hfit.2
  | deinit => exact sound_default cfg _
  | push elem => exact (h.pushBack_outcome htyped hfaithful hreal elem hfit).2 hkeeps
  | pop out => exact h.popBack htyped out
  | setAt index elem => exact h.setAt index elem
  | reserve minCapacity =>
    exact (h.reserve_outcome htyped hfaithful hreal minCapacity hfit).2 hkeeps
  | clear => exact h.clear

/-- **When growth is atomic**: after any calls that keep the tag, on a stack that was initialised with
any configuration, a push and a `reserve` have the outcome that they should have exactly if they keep
the tag. -/
theorem growth_outcome_iff (cfg : VectorConfig w V) (htyped : cfg.typed = false)
    (hfaithful : cfg.policy.Faithful) (hreal : RealBlocks cfg) (m : VectorMemory V)
    (calls : List (Call w V))
    (hrun : Mealy.EveryCall (call cfg) (fun s c => Fits cfg s c ∧ KeepsTag cfg s c)
      (zeroed w, m) calls)
    (s : StackBox w × VectorMemory V) (hs : Mealy.final (call cfg) (zeroed w, m) calls = s) :
    (∀ elem, Fits cfg s (.push elem) →
        (Outcome s.1.core s.2 elem.toList (s.1.core.pushBack cfg some s.2 elem) ↔
          KeepsTag cfg s (.push elem))) ∧
      ∀ minCapacity, Fits cfg s (.reserve minCapacity : Call w V) →
        (Outcome s.1.core s.2 [] (s.1.core.reserve cfg some s.2 minCapacity) ↔
          KeepsTag cfg s (.reserve minCapacity : Call w V)) := by
  have h : Sound cfg s.1.core s.2 := by
    subst hs
    refine hrun.final_invariant (fun s => Sound cfg s.1.core s.2) (fun s c h hc => ?_)
      (sound_default cfg m)
    exact sound_call htyped hfaithful hreal h c hc.1 hc.2
  exact ⟨fun elem hfit => (h.pushBack_outcome htyped hfaithful hreal elem hfit).1,
    fun minCapacity hfit => (h.reserve_outcome htyped hfaithful hreal minCapacity hfit).1⟩

/-- Stacks of words of 16 bits in a heap that grants every request below its limit; the fifth copy
fails. -/
def wordStack : VectorConfig 16 ℕ where
  policy :=
    { copyFn := fun n dst src => if n = 4 then (.invalid, dst) else (.ok, src)
      destroyFn := id }
  typed := false
  needsDestroy := false
  elemSize := 2
  allowHeap := true
  grants _ bytes := decide (bytes.toNat < 2 ^ 15)
  arenaAllocate _ n bytes := if bytes.toNat < 2 ^ 15 then .ok n else .error .oom
  arena_refuses _ _ bytes st h := by
    by_cases hfits : bytes.toNat < 2 ^ 15
    · rw [if_pos hfits] at h
      cases h
    · rw [if_neg hfits] at h
      cases h
      decide

/-- A growable stack over storage of its user, for two elements. -/
def pairConfig : StackConfig 16 where
  capacity := 2
  storage := some 0
  storageBytes := 4
  arena := none
  flags := .cleared
  growable := true

/-- A growth into the heap whose copies succeed, but for that of the new element. -/
theorem growth_outcome_iff_pair :
    let s := Mealy.final (call wordStack) (zeroed 16, VectorMemory.start fun _ => 0)
      [.init pairConfig, .push (some 1), .push (some 2)]
    (s.1.core.pushBack wordStack some s.2 (some 3)).1 = .invalid ∧
      (s.1.core.pushBack wordStack some s.2 (some 3)).2.1.elements
        (s.1.core.pushBack wordStack some s.2 (some 3)).2.2 = [1, 2] := by
  have hfaithful : wordStack.policy.Faithful := by
    intro n dst src hok
    by_cases hn : n = 4
    · rw [show wordStack.policy.copyFn n dst src = (.invalid, dst) from if_pos hn] at hok
      cases hok
    · rw [show wordStack.policy.copyFn n dst src = (.ok, src) from if_neg hn]
  have hreal : RealBlocks wordStack := by
    refine ⟨fun n bytes h => of_decide_eq_true h, fun arena n bytes number h => ?_⟩
    by_contra hlarge
    rw [show wordStack.arenaAllocate arena n bytes = .error .oom from if_neg hlarge] at h
    cases h
  obtain ⟨hpush, -⟩ := growth_outcome_iff wordStack rfl hfaithful hreal
    (VectorMemory.start fun _ => 0) [.init pairConfig, .push (some 1), .push (some 2)]
    (by decide +kernel) _ rfl
  have houtcome := (hpush (some 3) (by decide +kernel)).mpr (by decide +kernel)
  exact ⟨by decide +kernel,
    (houtcome.failed (by decide +kernel)).elements.trans (by decide +kernel)⟩

/-- **A storage kind that is wrong**: the stack over storage of its user grows, the copy of the
first element to the heap fails, and the storage kind says that the storage of the user is of the
heap. -/
theorem growth_loses_tag :
    let s := Mealy.final (call wordStack) (zeroed 16, VectorMemory.start fun _ => 0)
      [.init pairConfig, .push (some 1), .push (some 2), .pop (some 0), .push (some 2)]
    let r := s.1.core.pushBack wordStack some s.2 (some 3)
    r.1 = .invalid ∧ r.2.1.storage = .given 0 ∧ r.2.1.storageKind = .ownsHeap ∧
      ¬ Outcome s.1.core s.2 [3] r := by
  refine ⟨by decide +kernel, by decide +kernel, by decide +kernel, fun houtcome => ?_⟩
  have hblock := (houtcome.failed (by decide +kernel)).describes.heap
  revert hblock
  decide +kernel

end StackBox

end Memkit
