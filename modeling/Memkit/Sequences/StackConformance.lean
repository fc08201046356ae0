import Memkit.Sequences.StackReference

/-! # The stack and the vector conform to the pile

* **`Placed`** — the vector is where the pile is, and has asked for memory and begun copies as
  often.
* **`Represents`** — its elements and its room are those of the pile as well.
* **`represents_request`** — every call answers as the pile allows.
* **`conforms_pile`** — so do the calls of every run. -/

namespace Memkit

namespace VectorCore

open StackBox

variable {w : ℕ} {V : Type*} {cfg : VectorConfig w V} {s t : VectorCore w} {m m' : VectorMemory V}
  {d : Pile V}

/-- The vector is where the pile is, grows into the same arena or into the heap, and has asked for
memory and begun copies as often. -/
structure Placed (s : VectorCore w) (m : VectorMemory V) (d : Pile V) : Prop where
  block : s.storage = d.block
  arena : s.growAlloc = d.arena
  requests : m.requests = d.requests
  copies : m.cells.copies = d.copies
  /-- A vector in the heap grows there. -/
  heap : s.storageKind.heap = true → s.growAlloc = none

/-- The vector is sound, and its elements and its room are those of the pile. -/
structure Represents (cfg : VectorConfig w V) (s : VectorCore w) (m : VectorMemory V) (d : Pile V) :
    Prop where
  sound : Sound cfg s m
  items : s.elements m = d.items
  room : s.capacity.toNat = d.room
  growable : s.growable = d.growable
  placed : Placed s m d

theorem length_elements (s : VectorCore w) (m : VectorMemory V) :
    (s.elements m).length = s.size.toNat := by
  rw [elements, List.length_map, List.length_range]

theorem Represents.length (h : Represents cfg s m d) : d.items.length = s.size.toNat := by
  rw [← h.items, length_elements]

theorem Represents.length_le (h : Represents cfg s m d) : d.items.length ≤ d.room := by
  rw [h.length, ← h.room]
  exact BitVec.le_def.mp h.sound.size_le

/-- The pile is full if the counters are equal. -/
theorem Represents.full_iff (h : Represents cfg s m d) :
    s.size = s.capacity ↔ d.items.length = d.room := by
  rw [h.length, ← h.room]
  exact BitVec.toNat_inj.symm

theorem Represents.size_eq_zero (h : Represents cfg s m d) : s.size = 0 ↔ d.items = [] := by
  rw [← List.length_eq_zero_iff, h.length, ← BitVec.toNat_inj]
  rfl

/-- The element in a slot. -/
theorem Represents.getElem? (h : Represents cfg s m d) {i : ℕ} (hi : i < s.size.toNat) :
    d.items[i]? = some (m.cells.contents (s.slotAt i)) := by
  rw [← h.items, elements, List.getElem?_map, List.getElem?_range hi]
  rfl

theorem represents_blank (cfg : VectorConfig w V) (m : VectorMemory V) :
    Represents cfg (VectorCore.default w) m (.blank m.requests m.cells.copies) where
  sound := sound_default cfg m
  items := List.length_eq_zero_iff.mp ((length_elements _ m).trans BitVec.toNat_zero)
  room := BitVec.toNat_zero
  growable := rfl
  placed := ⟨rfl, rfl, rfl, rfl, by rintro ⟨⟩⟩

/-! ## Growth -/

/-- Copies to slots that are not read are those of the elements in order. -/
theorem copies_copySlots {α ι : Type*} [DecidableEq α] (policy : ElementPolicy V) (dst src : ι → α)
    (is : List ι) (hdisj : ∀ i ∈ is, ∀ j ∈ is, dst i ≠ src j) (c : Cells α V) :
    Pile.Copies policy c.copies (is.map fun i => c.contents (src i))
      (Cells.copySlots policy dst src is c).1 (Cells.copySlots policy dst src is c).2.copies := by
  induction is generalizing c with
  | nil => exact .done
  | cons i is ih =>
    have hrest := ih (fun j hj k hk =>
      hdisj j (List.mem_cons_of_mem i hj) k (List.mem_cons_of_mem i hk))
      (c.copyConstruct policy (dst i) (c.contents (src i))).2
    -- the elements that remain are still there
    have hsrc : (is.map fun j =>
        (c.copyConstruct policy (dst i) (c.contents (src i))).2.contents (src j)) =
        is.map fun j => c.contents (src j) := by
      apply List.map_congr_left
      intro j hj
      exact (Cells.copied policy c (dst i) _).frame _
        (hdisj i List.mem_cons_self j (List.mem_cons_of_mem i hj)).symm
    rw [hsrc] at hrest
    rw [Cells.copySlots]
    dsimp only
    by_cases hst : (c.copyConstruct policy (dst i) (c.contents (src i))).1 ≠ .ok
    · rw [if_pos hst]
      exact .failed hst
    · rw [if_neg hst]
      exact .copied (not_not.mp hst) hrest

/-- The bytes of elements move without a copy. -/
theorem copies_foldl_memcpy {α ι : Type*} [DecidableEq α] (dst src : ι → α) (is : List ι)
    (c : Cells α V) : (is.foldl (fun c i => c.memcpy (dst i) (src i)) c).copies = c.copies := by
  induction is generalizing c with
  | nil => rfl
  | cons i is ih => exact ih _

/-- What the pile asks for is what the vector asks for. -/
theorem Represents.askFor (h : Represents cfg s m d) {required : ℕ} {newCapacity : BitVec w}
    (hnew : newCapacity.toNat = grownCapacity (2 ^ w) d.room required) :
    d.askFor cfg required =
      Pile.memory cfg m.requests s.growAlloc (newCapacity * cfg.elemSize) := by
  have hbytes : BitVec.ofNat w (newCapacity.toNat * cfg.elemSize.toNat) =
      newCapacity * cfg.elemSize := by
    rw [BitVec.ofNat_mul, BitVec.ofNat_toNat, BitVec.ofNat_toNat, BitVec.setWidth_eq,
      BitVec.setWidth_eq]
  rw [Pile.askFor, ← hnew, hbytes, h.placed.requests, h.placed.arena]

/-- A request that is refused leaves the vector where it is. -/
theorem Represents.refused (h : Represents cfg s m d) {required n : ℕ} {st : Status}
    (hask : d.askFor cfg required = (.error st, n)) (hrequests : m'.requests = n)
    (hcells : m'.cells = m.cells) :
    ∃ d', Pile.Grow cfg d required st d' ∧ Placed s m' d' :=
  ⟨_, .refused hask, h.placed.block, h.placed.arena, hrequests,
    (congrArg Cells.copies hcells).trans h.placed.copies, h.placed.heap⟩

/-- Adopting a block copies the elements in order. -/
theorem Represents.adopt (h : Represents cfg s m d) (htyped : cfg.typed = false) {required : ℕ}
    {newCapacity : BitVec w} (hgrows : Grows cfg s newCapacity) {block : BlockPtr} {n : ℕ}
    (hask : d.askFor cfg required = (.ok block, n)) {kind : StorageKind}
    (hkind : kind.heap = true → s.growAlloc = none) (hrequests : m'.requests = n)
    (hcells : m'.cells = m.cells) (hmoves : ¬ d.Stays block) :
    ∃ d', Pile.Grow cfg d required
        (adopt cfg { s with storageKind := kind } m' block newCapacity).1 d' ∧
      Placed (adopt cfg { s with storageKind := kind } m' block newCapacity).2.1
        (adopt cfg { s with storageKind := kind } m' block newCapacity).2.2 d' := by
  have hne : block ≠ s.storage := fun heq => hmoves (.inr (heq.trans h.placed.block))
  obtain ⟨m'', hadopt, hrequests', hcells'⟩ :=
    adopt_cases (s := { s with storageKind := kind }) (m := m')
      (h.sound.growable hgrows.growable).1 hne newCapacity
  have hcopies := copies_copySlots cfg.policy (fun i => (block, i)) (fun i => (s.storage, i))
    (List.range s.size.toNat) (fun i _ j _ heq => hne (congrArg Prod.fst heq)) m.cells
  rw [← copyRange_eq_copySlots htyped, h.placed.copies] at hcopies
  have hitems : ((List.range s.size.toNat).map fun i => m.cells.contents (s.storage, i)) =
      d.items := h.items
  rw [hitems] at hcopies
  rw [hcells] at hadopt hcells'
  rw [hadopt]
  generalize copyRange cfg block s.storage (List.range s.size.toNat) m.cells = r
    at hcopies hcells' ⊢
  by_cases hst : r.1 ≠ .ok
  · rw [if_pos hst]
    exact ⟨_, .stopped hask hmoves hcopies hst, h.placed.block, h.placed.arena,
      hrequests'.trans hrequests, congrArg Cells.copies hcells', hkind⟩
  · rw [if_neg hst]
    rw [not_not] at hst
    rw [hst] at hcopies ⊢
    exact ⟨_, .copied hask hmoves hcopies, rfl, h.placed.arena, hrequests'.trans hrequests,
      congrArg Cells.copies hcells', hkind⟩

/-- `realloc` of a block of the heap. -/
theorem Represents.reallocHeap (h : Represents cfg s m d) {required : ℕ} {newCapacity : BitVec w}
    (hgrows : Grows cfg s newCapacity)
    (hnew : newCapacity.toNat = grownCapacity (2 ^ w) d.room required)
    (hheap : s.storageKind.heap = true) :
    ∃ d', Pile.Grow cfg d required (s.reallocHeap cfg m newCapacity).1 d' ∧
      Placed (s.reallocHeap cfg m newCapacity).2.1 (s.reallocHeap cfg m newCapacity).2.2 d' := by
  have hnone := h.placed.heap hheap
  have hask := h.askFor hnew
  rw [hnone, Pile.memory] at hask
  simp only [if_pos (h.sound.allowed hheap)] at hask
  unfold VectorCore.reallocHeap VectorMemory.realloc
  simp only [if_pos (h.sound.growable hgrows.growable).1]
  by_cases hgrants : cfg.grants m.requests (newCapacity * cfg.elemSize) = true
  · rw [if_pos hgrants] at hask
    simp only [if_pos hgrants, reduceCtorEq, if_false]
    have hstays : d.Stays (.heap m.requests) := by
      refine .inl ?_
      rw [← h.placed.block, ← h.sound.describes.heap, hheap]
    refine ⟨_, .kept hask hstays, rfl, h.placed.arena, rfl, ?_, fun _ => hnone⟩
    exact (copies_foldl_memcpy _ _ _ _).trans h.placed.copies
  · rw [if_neg hgrants] at hask
    simp only [if_neg hgrants, if_true]
    exact h.refused hask rfl rfl

/-- **Growth** finds the pile where the vector is. -/
theorem Represents.placed_reallocate (h : Represents cfg s m d) (htyped : cfg.typed = false)
    {required : ℕ} {newCapacity : BitVec w} (hgrows : Grows cfg s newCapacity)
    (hnew : newCapacity.toNat = grownCapacity (2 ^ w) d.room required) :
    ∃ d', Pile.Grow cfg d required (s.reallocate cfg some m newCapacity).1 d' ∧
      Placed (s.reallocate cfg some m newCapacity).2.1
        (s.reallocate cfg some m newCapacity).2.2 d' := by
  have henough : ¬ newCapacity < s.size := BitVec.not_lt.mpr hgrows.enough
  rw [reallocate, if_neg henough]
  by_cases hheap : s.storageKind.heap = true
  · rw [if_pos (by rw [h.sound.allowed hheap, hheap]; rfl)]
    exact h.reallocHeap hgrows hnew hheap
  rw [Bool.not_eq_true] at hheap
  have hblock : d.block.isHeap = false := by
    rw [← h.placed.block, ← h.sound.describes.heap, hheap]
  have hask := h.askFor hnew
  rw [if_neg (by rw [hheap, Bool.and_false]; rintro ⟨⟩)]
  -- a vector outside the heap asks its arena, and moves into the heap without one
  rcases Option.eq_none_or_eq_some s.growAlloc with halloc | ⟨arena, halloc⟩
  case inr =>
    rw [halloc, Pile.memory] at hask
    rw [obtain_arena halloc]
    cases hanswer : cfg.arenaAllocate arena m.requests (newCapacity * cfg.elemSize) with
    | error st =>
      rw [hanswer] at hask
      exact h.refused hask rfl rfl
    | ok number =>
      rw [hanswer] at hask
      by_cases hsame : BlockPtr.arena number = s.storage
      · -- the block that the vector has already
        have hadopt : VectorCore.adopt cfg { s with storageKind := s.storageKind }
            { m with requests := m.requests + 1 } (.arena number) newCapacity =
            (.ok, { s with storage := .arena number, capacity := newCapacity },
              { m with requests := m.requests + 1 }) := by
          simp [VectorCore.adopt, hsame]
        simp only [Except.map]
        rw [hadopt]
        exact ⟨_, .kept hask (.inr (hsame.trans h.placed.block)), rfl, h.placed.arena, rfl,
          h.placed.copies, h.placed.heap⟩
      · refine h.adopt htyped hgrows hask h.placed.heap rfl rfl ?_
        rintro (hin | heq)
        · exact Bool.false_ne_true (hblock.symm.trans hin)
        · exact hsame (heq.trans h.placed.block.symm)
  case inl =>
    rw [halloc, Pile.memory] at hask
    by_cases hallow : cfg.allowHeap = true
    swap
    · simp only [if_neg hallow] at hask
      simp only [obtain, halloc, if_neg hallow]
      exact h.refused hask rfl rfl
    simp only [if_pos hallow] at hask
    by_cases hgrants : cfg.grants m.requests (newCapacity * cfg.elemSize) = true
    · rw [if_pos hgrants] at hask
      rw [obtain_heap halloc hallow hgrants]
      refine h.adopt htyped hgrows hask (fun _ => halloc) rfl rfl ?_
      rintro (hin | heq)
      · exact Bool.false_ne_true (hblock.symm.trans hin)
      · exact (h.sound.fresh m.requests (h.placed.block.trans heq.symm)).false
    · rw [if_neg hgrants] at hask
      simp only [obtain, halloc, if_pos hallow, VectorMemory.malloc, if_neg hgrants, if_true]
      exact h.refused hask rfl rfl

/-- **Growth** is growth of the pile, if it does not lose the tag. -/
theorem Represents.grow (h : Represents cfg s m d) (htyped : cfg.typed = false)
    (hfaithful : cfg.policy.Faithful) (hreal : RealBlocks cfg) (hgrow : s.growable = true)
    {minCapacity : BitVec w}
    (hfit : (growCapacity s.capacity minCapacity).toNat * cfg.elemSize.toNat < 2 ^ w)
    (hwhole : ¬ LosesTag cfg s m (growCapacity s.capacity minCapacity)) :
    ∃ d', Pile.Grow cfg d minCapacity.toNat (s.grow cfg some m minCapacity).1 d' ∧
      Represents cfg (s.grow cfg some m minCapacity).2.1 (s.grow cfg some m minCapacity).2.2
        d' := by
  have hgrows := h.sound.grows hgrow hfit
  have hnew := toNat_growCapacity (h.sound.growable hgrow).2.1 minCapacity
  rw [h.room] at hnew
  rw [h.sound.grow_eq hgrow]
  obtain ⟨d', hstep, hplaced⟩ := h.placed_reallocate htyped hgrows hnew
  obtain ⟨hitems, hgrowable, -, hroom⟩ := hstep.leaves
  have hgrowth := growth_reallocate htyped hfaithful hreal h.sound hgrows hwhole
  generalize s.reallocate cfg some m (growCapacity s.capacity minCapacity) = r
    at hstep hplaced hroom hgrowth ⊢
  refine ⟨d', hstep, ?_⟩
  cases hgrowth with
  | refused hst hsound helements =>
    rw [if_neg hst] at hroom
    exact ⟨hsound, (helements.trans h.items).trans hitems.symm, h.room.trans hroom.symm,
      h.growable.trans hgrowable.symm, hplaced⟩
  | grown hgrown =>
    rw [if_pos rfl] at hroom
    refine ⟨hgrown.sound, (hgrown.elements.trans h.items).trans hitems.symm, ?_,
      (hgrown.growable.trans h.growable).trans hgrowable.symm, hplaced⟩
    rw [hgrown.capacity, hnew, hroom]

/-! ## Pushes -/

/-- Adding an element leaves all members but the size, and begins one copy. -/
theorem Placed.addElem (h : Placed s m d) (htyped : cfg.typed = false) (elem : V) :
    ∃ dst, (s.addElem cfg m elem).1 = (cfg.policy.copyConstruct d.copies dst elem).1 ∧
      Placed (s.addElem cfg m elem).2.1 (s.addElem cfg m elem).2.2
        { d with copies := d.copies + 1 } ∧
      (s.addElem cfg m elem).2.1.capacity = s.capacity ∧
      (s.addElem cfg m elem).2.1.growable = s.growable := by
  have hconstruct : construct cfg m.cells (s.slotAt s.size.toNat) elem =
      m.cells.copyConstruct cfg.policy (s.slotAt s.size.toNat) elem := by
    rw [construct, if_neg (by simp [htyped])]
  unfold VectorCore.addElem
  rw [hconstruct, ← h.copies]
  dsimp only
  split
  · exact ⟨_, rfl, ⟨h.block, h.arena, h.requests, rfl, h.heap⟩, rfl, rfl⟩
  · next hok =>
    exact ⟨_, (not_not.mp hok).symm, ⟨h.block, h.arena, h.requests, rfl, h.heap⟩, rfl, rfl⟩

/-- **Adding an element** if there is room. -/
theorem Represents.addElem (h : Represents cfg s m d) (htyped : cfg.typed = false)
    (hfaithful : cfg.policy.Faithful) (hroom : d.items.length < d.room) (elem : V) :
    ∃ d', Pile.Add cfg d elem (s.addElem cfg m elem).1 d' ∧
      Represents cfg (s.addElem cfg m elem).2.1 (s.addElem cfg m elem).2.2 d' := by
  rw [h.length, ← h.room] at hroom
  obtain ⟨hsound, hfailed, hdone⟩ := h.sound.addElem htyped hfaithful hroom elem
  obtain ⟨dst, hst, hplaced, hcapacity, hgrowable⟩ := h.placed.addElem htyped elem
  have hroom' := (congrArg BitVec.toNat hcapacity).trans h.room
  have hgrowable' := hgrowable.trans h.growable
  by_cases hok : (s.addElem cfg m elem).1 = .ok
  · rw [hok] at hst ⊢
    exact ⟨_, .added (.copied hst.symm .done), hsound, by rw [hdone hok, h.items], hroom',
      hgrowable', hplaced.block, hplaced.arena, hplaced.requests, hplaced.copies, hplaced.heap⟩
  · obtain ⟨hsame, helements⟩ := hfailed hok
    rw [hst] at hok ⊢
    exact ⟨_, .failed (.failed hok) hok, hsound, by rw [hsame, helements, h.items], hroom',
      hgrowable', hplaced⟩

/-- **`push_back`** answers as the pile allows. -/
theorem Represents.pushBack (h : Represents cfg s m d) (htyped : cfg.typed = false)
    (hfaithful : cfg.policy.Faithful) (hreal : RealBlocks cfg) (elem : Option V)
    (hfit : SizeFits cfg s (s.pushAsks elem)) (hwhole : GrowsWhole cfg s m (s.pushAsks elem)) :
    ∃ d', Pile.Step cfg d (.call (.push elem))
        (.answer (.status (s.pushBack cfg some m elem).1)) d' ∧
      Represents cfg (s.pushBack cfg some m elem).2.1 (s.pushBack cfg some m elem).2.2 d' := by
  cases elem with
  | none => exact ⟨d, .pushNull, h⟩
  | some elem =>
    rw [pushBack_eq cfg s m elem rfl]
    by_cases hfull : s.size = s.capacity
    swap
    · -- there is room
      have hroom : d.items.length < d.room := lt_of_le_of_ne h.length_le (mt h.full_iff.mpr hfull)
      obtain ⟨d', hadd, hnext⟩ := h.addElem htyped hfaithful hroom elem
      rw [if_neg hfull, if_neg (not_not.mpr rfl)]
      exact ⟨d', .pushed hroom hadd, hnext⟩
    have hfull' := h.full_iff.mp hfull
    rw [if_pos hfull]
    by_cases hfixed : s.growable = false
    · have hrefused : s.grow cfg some m (s.size + 1) = (.full, s, m) := if_pos hfixed
      rw [hrefused, if_pos (by rintro ⟨⟩)]
      exact ⟨d, .pushFull hfull' (h.growable.symm.trans hfixed), h⟩
    have hgrow := Bool.eq_true_of_not_eq_false hfixed
    have hgrow' := h.growable.symm.trans hgrow
    have hasks : s.pushAsks (some elem) = some (s.size + 1) := if_pos ⟨hgrow, hfull⟩
    rw [hasks] at hfit hwhole
    have hpos := (h.sound.growable hgrow).2.1
    have hsucc := h.sound.toNat_size_succ hpos hfull
    obtain ⟨t, hstep, hgrown⟩ :=
      h.grow htyped hfaithful hreal hgrow (hfit _ rfl) (hwhole _ rfl)
    rw [hsucc, ← h.length] at hstep
    generalize s.grow cfg some m (s.size + 1) = r at hstep hgrown ⊢
    by_cases hst : r.1 ≠ .ok
    · rw [if_pos hst]
      exact ⟨t, .pushRefused hfull' hgrow' hstep hst, hgrown⟩
    · rw [if_neg hst]
      rw [not_not] at hst
      rw [hst] at hstep
      -- there is room now
      obtain ⟨hitems, -, -, hroom⟩ := hstep.leaves
      rw [if_pos rfl] at hroom
      have henough : t.items.length < t.room := by
        rw [hitems, hroom]
        exact le_grownCapacity (h.room ▸ hpos) _ _
      obtain ⟨d', hadd, hnext⟩ := hgrown.addElem htyped hfaithful henough elem
      exact ⟨d', .pushGrown hfull' hgrow' hstep hadd, hnext⟩

/-- **`reserve`**, likewise. -/
theorem Represents.reserve (h : Represents cfg s m d) (htyped : cfg.typed = false)
    (hfaithful : cfg.policy.Faithful) (hreal : RealBlocks cfg) (minCapacity : BitVec w)
    (hfit : SizeFits cfg s (s.reserveAsks minCapacity))
    (hwhole : GrowsWhole cfg s m (s.reserveAsks minCapacity)) :
    ∃ d', Pile.Step cfg d (.call (.reserve minCapacity))
        (.answer (.status (s.reserve cfg some m minCapacity).1)) d' ∧
      Represents cfg (s.reserve cfg some m minCapacity).2.1
        (s.reserve cfg some m minCapacity).2.2 d' := by
  unfold VectorCore.reserve
  by_cases hle : minCapacity ≤ s.capacity
  · rw [if_pos hle]
    exact ⟨d, .reserveEnough (h.room ▸ BitVec.le_def.mp hle), h⟩
  have hless : d.room < minCapacity.toNat := by
    rw [BitVec.le_def, h.room] at hle
    omega
  rw [if_neg hle]
  by_cases hfixed : s.growable = false
  · rw [if_pos hfixed]
    exact ⟨d, .reserveFull hless (h.growable.symm.trans hfixed), h⟩
  have hgrow := Bool.eq_true_of_not_eq_false hfixed
  have hasks : s.reserveAsks minCapacity = some minCapacity :=
    if_pos ⟨hgrow, BitVec.not_le.mp hle⟩
  rw [hasks] at hfit hwhole
  rw [if_neg hfixed]
  obtain ⟨d', hstep, hnext⟩ := h.grow htyped hfaithful hreal hgrow (hfit _ rfl) (hwhole _ rfl)
  exact ⟨d', .reserved hless (h.growable.symm.trans hgrow) hstep, hnext⟩

/-! ## Pops and writes -/

/-- The elements below another size. -/
theorem Represents.resize (h : Represents cfg s m d) {size : BitVec w} (hsize : size ≤ s.size)
    {cells : Cells (BlockPtr × ℕ) V}
    (hcells : ∀ i < size.toNat, cells.contents (s.slotAt i) = m.cells.contents (s.slotAt i))
    {n : ℕ} (hcopies : cells.copies = n) :
    Represents cfg { s with size := size } { m with cells := cells }
      { d with items := d.items.take size.toNat, copies := n } where
  sound := h.sound.resize (BitVec.le_trans hsize h.sound.size_le) cells
  items := by
    have hmin : min size.toNat s.size.toNat = size.toNat := min_eq_left (BitVec.le_def.mp hsize)
    rw [← h.items, elements, elements, ← List.map_take, List.take_range, hmin]
    exact List.map_congr_left fun i hi => hcells i (List.mem_range.mp hi)
  room := h.room
  growable := h.growable
  placed := ⟨h.placed.block, h.placed.arena, h.placed.requests, hcopies, h.placed.heap⟩

/-- Destroying begins no copy. -/
theorem copies_destroySlot (cfg : VectorConfig w V) (cells : Cells (BlockPtr × ℕ) V)
    (slot : BlockPtr × ℕ) : (destroySlot cfg cells slot).copies = cells.copies := by
  unfold destroySlot
  split
  · rfl
  · rfl

theorem copies_foldl_destroySlot (cfg : VectorConfig w V) (slot : ℕ → BlockPtr × ℕ) (is : List ℕ)
    (cells : Cells (BlockPtr × ℕ) V) :
    (is.foldl (fun c i => destroySlot cfg c (slot i)) cells).copies = cells.copies := by
  induction is generalizing cells with
  | nil => rfl
  | cons i is ih => exact (ih _).trans (copies_destroySlot cfg cells (slot i))

/-- The last element is the one in the slot that the size less one leads to. -/
theorem Represents.top (h : Represents cfg s m d) (hne : s.size ≠ 0) :
    d.items = d.items.take (s.size - 1).toNat ++
      [m.cells.contents (s.slotAt (s.size - 1).toNat)] := by
  have hpred := WrapCounter.toNat_pred hne
  have hlast := h.getElem? (Nat.lt_of_succ_le hpred.le)
  have hsplit := List.take_add_one (l := d.items) (i := (s.size - 1).toNat)
  rw [hlast, hpred, ← h.length, List.take_length] at hsplit
  exact hsplit

/-- A pop to an out pointer. -/
theorem popBack_some (htyped : cfg.typed = false) (hne : s.size ≠ 0) {out value : V} {st : Status}
    {cells : Cells (BlockPtr × ℕ) V}
    (hcopy : m.cells.copyOut cfg.policy (s.slotAt (s.size - 1).toNat) out = ((st, value), cells)) :
    s.popBack cfg m (some out) =
      if st ≠ .ok then ((st, some value), s, { m with cells := cells })
      else ((.ok, some value), { s with size := s.size - 1 }, { m with cells := cells }) := by
  have hslot : m.cells.copyOut cfg.policy
      (slotAt { s with size := s.size - 1 } (s.size - 1).toNat) out = ((st, value), cells) := hcopy
  -- if the copy fails the size goes back up
  have hback : s.size - 1 + 1 = s.size := BitVec.sub_add_cancel _ _
  unfold VectorCore.popBack
  simp only [if_neg hne, htyped, Bool.false_eq_true, if_false, hslot, hback]

/-- **`pop_back`**, likewise. -/
theorem Represents.popBack (h : Represents cfg s m d) (htyped : cfg.typed = false)
    (hfaithful : cfg.policy.Faithful) (out : Option V) :
    ∃ d', Pile.Step cfg d (.call (.pop out)) (.answer (.ofOut (s.popBack cfg m out).1)) d' ∧
      Represents cfg (s.popBack cfg m out).2.1 (s.popBack cfg m out).2.2 d' := by
  by_cases hempty : s.size = 0
  · have hnothing : s.popBack cfg m out = ((.empty, out), s, m) := if_pos hempty
    rw [hnothing]
    exact ⟨d, .popEmpty (h.size_eq_zero.mp hempty), h⟩
  have hpred := WrapCounter.toNat_pred hempty
  have hle : s.size - 1 ≤ s.size := by
    rw [BitVec.le_def]
    omega
  have htop := h.top hempty
  cases out with
  | none =>
    unfold VectorCore.popBack
    rw [if_neg hempty]
    refine ⟨_, .dropped htop, h.resize hle (fun i hi => ?_)
      ((copies_destroySlot _ _ _).trans h.placed.copies)⟩
    unfold destroySlot
    split
    · refine Function.update_of_ne (fun heq => ?_) _ _
      exact hi.ne (Prod.mk.inj heq).2
    · rfl
  | some out =>
    have hcells : (m.cells.copyOut cfg.policy (s.slotAt (s.size - 1).toNat) out).2.contents =
        m.cells.contents := rfl
    have hcopies : (m.cells.copyOut cfg.policy (s.slotAt (s.size - 1).toNat) out).2.copies =
        d.copies + 1 := congrArg Nat.succ h.placed.copies
    have hresult : (m.cells.copyOut cfg.policy (s.slotAt (s.size - 1).toNat) out).1 =
        cfg.policy.copyConstruct d.copies out
          (m.cells.contents (s.slotAt (s.size - 1).toNat)) := by
      rw [← h.placed.copies]
      rfl
    generalize hcopy : m.cells.copyOut cfg.policy (s.slotAt (s.size - 1).toNat) out = r
      at hcells hcopies hresult
    obtain ⟨⟨st, value⟩, cells⟩ := r
    rw [popBack_some htyped hempty hcopy]
    by_cases hst : st ≠ .ok
    · rw [if_pos hst]
      have hsame : Represents cfg s { m with cells := cells }
          { d with items := d.items.take s.size.toNat, copies := d.copies + 1 } :=
        h.resize (BitVec.le_refl s.size) (fun i _ => congrFun hcells (s.slotAt i)) hcopies
      rw [← h.length, List.take_length] at hsame
      exact ⟨_, .popFailed htop hresult.symm hst, hsame⟩
    · rw [not_not] at hst
      subst hst
      have hok := congrArg Prod.fst hresult.symm
      obtain rfl : value = _ := (congrArg Prod.snd hresult).trans (hfaithful _ _ _ hok)
      rw [if_neg (not_not.mpr rfl)]
      exact ⟨_, .popped htop hok, h.resize hle (fun i _ => congrFun hcells (s.slotAt i)) hcopies⟩

/-- The elements after a write to one of their slots. -/
theorem elements_write (s : VectorCore w) {cells : Cells (BlockPtr × ℕ) V} {index : ℕ} {value : V}
    (hvalue : cells.contents (s.slotAt index) = value)
    (hframe : ∀ a, a ≠ s.slotAt index → cells.contents a = m.cells.contents a) :
    s.elements { m with cells := cells } = (s.elements m).set index value := by
  refine List.ext_getElem (by simp [elements]) fun i hi _ => ?_
  rw [List.getElem_set]
  simp only [elements, List.getElem_map, List.getElem_range]
  by_cases heq : index = i
  · rw [if_pos heq, ← heq, hvalue]
  · rw [if_neg heq]
    exact hframe _ fun hslot => heq (Prod.mk.inj hslot).2.symm

/-- **`set_at`**, likewise. -/
theorem Represents.setAt (h : Represents cfg s m d) (htyped : cfg.typed = false)
    (hfaithful : cfg.policy.Faithful) (index : BitVec w) (elem : Option V) :
    ∃ d', Pile.Step cfg d (.call (.setAt index elem))
        (.answer (.status (s.setAt cfg m index elem).1)) d' ∧
      Represents cfg s (s.setAt cfg m index elem).2 d' := by
  have hsound := h.sound.setAt index elem
  cases elem with
  | none => exact ⟨d, .setNull, h⟩
  | some elem =>
    unfold VectorCore.setAt at hsound ⊢
    by_cases hle : s.size ≤ index
    · simp only [if_pos hle] at hsound ⊢
      exact ⟨d, .setInvalid (h.length ▸ BitVec.le_def.mp hle), h⟩
    have hless : index.toNat < s.size.toNat := by
      rw [BitVec.le_def] at hle
      omega
    have hx := h.getElem? hless
    have hcopied := Cells.copied cfg.policy m.cells (s.slotAt index.toNat) elem
    have hitems := elements_write (m := m) s rfl hcopied.frame
    rw [h.items] at hitems
    have hplaced : ∀ items, Placed s
        { m with cells := (m.cells.copyConstruct cfg.policy (s.slotAt index.toNat) elem).2 }
        { d with items := items, copies := d.copies + 1 } := fun _ =>
      ⟨h.placed.block, h.placed.arena, h.placed.requests, congrArg Nat.succ h.placed.copies,
        h.placed.heap⟩
    have hresult : (cfg.policy.copyConstruct d.copies (m.cells.contents (s.slotAt index.toNat))
        elem).1 = (m.cells.copyConstruct cfg.policy (s.slotAt index.toNat) elem).1 := by
      rw [← h.placed.copies]
      rfl
    have hleft : (cfg.policy.copyConstruct d.copies (m.cells.contents (s.slotAt index.toNat))
        elem).2 = (m.cells.copyConstruct cfg.policy (s.slotAt index.toNat) elem).2.contents
          (s.slotAt index.toNat) := by
      rw [← h.placed.copies]
      show _ = Function.update m.cells.contents (s.slotAt index.toNat) _ (s.slotAt index.toNat)
      exact (Function.update_self (s.slotAt index.toNat) _ m.cells.contents).symm
    simp only [if_neg hle, htyped, Bool.false_eq_true, if_false] at hsound ⊢
    generalize m.cells.copyConstruct cfg.policy (s.slotAt index.toNat) elem = r
      at hcopied hsound hitems hplaced hresult hleft ⊢
    obtain ⟨st, cells⟩ := r
    by_cases hst : st = .ok
    · subst hst
      rw [hcopied.value rfl hfaithful] at hitems
      exact ⟨_, .set hx hresult, hsound, hitems, h.room, h.growable, hplaced _⟩
    · exact ⟨_, .setFailed hx (Prod.ext hresult hleft) hst, hsound, hitems, h.room, h.growable,
        hplaced _⟩

/-- **`clear`** leaves the room. -/
theorem Represents.clear (h : Represents cfg s m d) :
    Represents cfg (s.clear cfg m).1 (s.clear cfg m).2 { d with items := [] } := by
  have hzero : (0 : BitVec w).toNat = 0 := BitVec.toNat_zero
  unfold VectorCore.clear
  by_cases hempty : s.size = 0
  · rw [if_pos hempty, ← h.size_eq_zero.mp hempty]
    exact h
  · rw [if_neg hempty]
    have hresize : Represents cfg { s with size := 0 }
        { m with
          cells := (List.range s.size.toNat).foldl (fun c i => destroySlot cfg c (s.slotAt i))
            m.cells } _ :=
      h.resize (VectorObject.zero_le_word s.size) (fun i hi => absurd hi (by omega))
        ((copies_foldl_destroySlot _ _ _ _).trans h.placed.copies)
    rw [hzero, List.take_zero] at hresize
    exact hresize

/-! ## Reading -/

/-- **`peek_at`** answers by the index. -/
theorem Represents.peekAt (h : Represents cfg s m d) (index : BitVec w) (out : V) :
    Answer.ofOut (s.peekAt m index (some out)) =
      match d.items[index.toNat]? with
      | some x => .value .ok (some x)
      | _ => .value .invalid (some out) := by
  unfold VectorCore.peekAt
  by_cases hle : s.size ≤ index
  · have hnone : d.items[index.toNat]? = none :=
      List.getElem?_eq_none (h.length ▸ BitVec.le_def.mp hle)
    simp only [if_pos hle, hnone]
    rfl
  · have hless : index.toNat < s.size.toNat := by
      rw [BitVec.le_def] at hle
      omega
    simp only [if_neg hle, h.getElem? hless]
    rfl

/-- **`peek_back`** answers by the top. -/
theorem Represents.peekBack (h : Represents cfg s m d) (out : V) :
    Answer.ofOut (s.peekBack m (some out)) =
      match d.items.getLast? with
      | some x => .value .ok (some x)
      | _ => .value .empty (some out) := by
  unfold VectorCore.peekBack
  by_cases hempty : s.size = 0
  · simp only [if_pos hempty, h.size_eq_zero.mp hempty, List.getLast?_nil]
    rfl
  · have hlast : d.items.getLast? = some (m.cells.contents (s.slotAt (s.size - 1).toNat)) := by
      rw [h.top hempty, List.getLast?_concat]
    simp only [if_neg hempty, hlast]
    rfl

/-- **`foreach`** visits from the bottom. -/
theorem Represents.foreach (h : Represents cfg s m d) (visit : List (V × ℕ) → Status) :
    s.foreach m visit = visitLoop visit [] d.items.zipIdx := by
  have hpairs : d.items.zipIdx =
      (List.range s.size.toNat).map fun i => (m.cells.contents (s.slotAt i), i) := by
    refine List.ext_getElem (by simp [h.length]) fun i hi hi' => ?_
    have hless : i < s.size.toNat := by
      rw [List.length_map, List.length_range] at hi'
      exact hi'
    have hget := h.getElem? hless
    rw [List.getElem?_eq_some_iff] at hget
    obtain ⟨_, hget⟩ := hget
    simp [hget]
  rw [VectorCore.foreach, hpairs]

end VectorCore

namespace StackBox

open VectorCore

variable {w : ℕ} {V : Type*} {cfg : VectorConfig w V} {m : VectorMemory V} {d : Pile V}
  {s : StackBox w × VectorMemory V}

/-! ## Runs -/

/-- **The storage of a box** is the block that the pile is provided with. -/
theorem allocateElementStorage_eq (cfg : VectorConfig w V) (m : VectorMemory V)
    (config : StackConfig w) (capacity : BitVec w) :
    ∃ result m', allocateElementStorage cfg m { config.toElementConfig with capacity := capacity } =
        (result, m') ∧ m'.cells.copies = m.cells.copies ∧
      (result.map Prod.fst, m'.requests) = Pile.provide cfg m.requests config capacity ∧
      ∀ provided, result = .ok provided → provided.1 ≠ .null ∧
        (provided.2.1.heap = true → config.arena = none) := by
  unfold allocateElementStorage Pile.provide
  dsimp only
  -- storage of the caller comes first, then the arena, then the heap if it is allowed
  cases hstorage : config.storage with
  | some number =>
    refine ⟨_, _, rfl, rfl, rfl, ?_⟩
    rintro _ ⟨⟩
    exact ⟨by rintro ⟨⟩, by rintro ⟨⟩⟩
  | none =>
    dsimp only
    cases harena : config.arena with
    | some arena =>
      have hsome : ¬ (some arena = none ∧
          (cfg.allowHeap && config.flags.dynamicStorage) = false) :=
        fun hnot => Option.some_ne_none arena hnot.1
      rw [if_neg hsome, Pile.memory]
      simp only [VectorMemory.allocate]
      cases cfg.arenaAllocate arena m.requests (cfg.elemSize * capacity) with
      | error st =>
        refine ⟨_, _, rfl, rfl, rfl, ?_⟩
        rintro _ ⟨⟩
      | ok number =>
        refine ⟨_, _, rfl, rfl, rfl, ?_⟩
        rintro _ ⟨⟩
        exact ⟨by rintro ⟨⟩, by rintro ⟨⟩⟩
    | none =>
      dsimp only
      by_cases hallow : (cfg.allowHeap && config.flags.dynamicStorage) = true
      swap
      · have hnone : (none : Option ℕ) = none ∧
            (cfg.allowHeap && config.flags.dynamicStorage) = false :=
          ⟨rfl, Bool.eq_false_of_not_eq_true hallow⟩
        rw [if_neg hallow, if_pos hnone]
        refine ⟨_, _, rfl, rfl, rfl, ?_⟩
        rintro _ ⟨⟩
      have hsome : ¬ ((none : Option ℕ) = none ∧
          (cfg.allowHeap && config.flags.dynamicStorage) = false) :=
        fun hnot => Bool.false_ne_true (hnot.2.symm.trans hallow)
      rw [if_pos hallow, if_neg hsome, Pile.memory, if_pos (Bool.and_eq_true_iff.mp hallow).1,
        VectorMemory.malloc]
      by_cases hgrants : cfg.grants m.requests (cfg.elemSize * capacity) = true
      · simp only [if_pos hgrants, reduceCtorEq, if_false]
        refine ⟨_, _, rfl, rfl, rfl, ?_⟩
        rintro _ ⟨⟩
        exact ⟨by rintro ⟨⟩, fun _ => trivial⟩
      · simp only [if_neg hgrants, if_true]
        refine ⟨_, _, rfl, rfl, rfl, ?_⟩
        rintro _ ⟨⟩

/-- **`init`** makes an empty pile, or leaves the box blank. -/
theorem represents_init (h : Represents cfg s.1.core s.2 d) (hreal : RealBlocks cfg)
    (config : StackConfig w) (hfits : config.capacity.toNat * cfg.elemSize.toNat < 2 ^ w)
    (hbytes : config.storage ≠ none → config.storageBytes.toNat < 2 ^ (w - 1)) :
    (init cfg s.2 config).1 = (d.init cfg config).1 ∧
      Represents cfg (init cfg s.2 config).2.1.core (init cfg s.2 config).2.2
        (d.init cfg config).2 := by
  have hsound : Sound cfg (init cfg s.2 config).2.1.core (init cfg s.2 config).2.2 :=
    sound_init hreal config hfits hbytes
  revert hsound
  unfold init Pile.init
  dsimp only
  rw [← h.placed.requests, ← h.placed.copies]
  split
  · exact fun _ => ⟨rfl, represents_blank cfg s.2⟩
  next hvalid =>
  generalize hcapacity : (if config.storage = none ∧ config.capacity = 0 then 1
    else config.capacity) = capacity
  obtain ⟨helem, hpos, -, -⟩ := capacity_of_valid (not_not.mp hvalid) hfits hbytes hcapacity
  obtain ⟨result, m', hallocate, hcopies, hprovide, hblock⟩ :=
    allocateElementStorage_eq cfg s.2 config capacity
  rw [hallocate, ← hprovide, ← hcopies]
  cases result with
  | error st => exact fun _ => ⟨rfl, represents_blank cfg m'⟩
  | ok provided =>
    obtain ⟨storage, kind, flags⟩ := provided
    obtain ⟨hnull, hheap⟩ := hblock _ rfl
    have hinit : VectorCore.init cfg { VectorCore.default w with storageKind := kind } storage
        capacity config.growable = (.ok, { VectorCore.default w with
          storageKind := kind, storage := storage, capacity := capacity, size := 0,
          growable := config.growable }) := by
      refine if_neg ?_
      rintro (hnone | hzero | hzero)
      · exact hnull hnone
      · rw [hzero] at hpos
        exact absurd hpos (by simp)
      · rw [hzero] at helem
        exact absurd helem (by simp)
    dsimp only [Except.map]
    rw [hinit, if_neg (not_not.mpr rfl)]
    refine fun hsound => ⟨rfl, hsound, ?_, rfl, rfl, rfl, rfl, rfl, rfl, hheap⟩
    exact List.length_eq_zero_iff.mp ((length_elements _ _).trans BitVec.toNat_zero)

/-- Giving the storage back asks for nothing and leaves the elements. -/
theorem releaseElementStorage_same (cfg : VectorConfig w V) (m : VectorMemory V)
    (storage : BlockPtr) (kind : StorageKind) (flags : ElementFlags) :
    (releaseElementStorage cfg m storage kind flags).requests = m.requests ∧
      (releaseElementStorage cfg m storage kind flags).cells = m.cells := by
  unfold releaseElementStorage
  split
  · exact ⟨rfl, rfl⟩
  split
  · exact ⟨rfl, rfl⟩
  · exact ⟨rfl, rfl⟩

/-- **`deinit`** leaves the box blank. -/
theorem represents_deinit (h : Represents cfg s.1.core s.2 d) :
    Represents cfg (s.1.deinit cfg s.2).1.core (s.1.deinit cfg s.2).2
      (.blank d.requests d.copies) := by
  have hcleared := h.clear.placed
  obtain ⟨hrequests, hcells⟩ := releaseElementStorage_same cfg (s.1.core.clear cfg s.2).2
    (s.1.core.clear cfg s.2).1.storage (s.1.core.clear cfg s.2).1.storageKind s.1.cFlags
  have hblank := represents_blank cfg (releaseElementStorage cfg (s.1.core.clear cfg s.2).2
    (s.1.core.clear cfg s.2).1.storage (s.1.core.clear cfg s.2).1.storageKind s.1.cFlags)
  rw [hrequests, hcells, hcleared.requests, hcleared.copies] at hblank
  exact hblank

/-- **One call** answers as the pile allows. -/
theorem represents_request (h : Represents cfg s.1.core s.2 d) (htyped : cfg.typed = false)
    (hfaithful : cfg.policy.Faithful) (hreal : RealBlocks cfg) (r : Request w V)
    (hsafe : Safe cfg s r) :
    ∃ d', Pile.Step cfg d r (request cfg s r).1 d' ∧
      Represents cfg (request cfg s r).2.1.core (request cfg s r).2.2 d' := by
  cases r with
  | call c =>
    cases c with
    | init config =>
      obtain ⟨hst, hnext⟩ := represents_init h hreal config hsafe.1.1 hsafe.1.2
      refine ⟨_, ?_, hnext⟩
      show Pile.Step cfg d _ (.answer (.status (StackBox.init cfg s.2 config).1)) _
      rw [hst]
      exact .init
    | deinit => exact ⟨_, .deinit, represents_deinit h⟩
    | push elem => exact h.pushBack htyped hfaithful hreal elem hsafe.1 hsafe.2
    | pop out => exact h.popBack htyped hfaithful out
    | setAt index elem => exact h.setAt htyped hfaithful index elem
    | reserve minCapacity => exact h.reserve htyped hfaithful hreal minCapacity hsafe.1 hsafe.2
    | clear => exact ⟨_, .clear, h.clear⟩
  | peekFront out =>
    cases out with
    | none => exact ⟨d, .peekNull (.inl rfl), h⟩
    | some out =>
      refine ⟨d, ?_, h⟩
      -- `peek_front` is `peek_at` of index zero
      have hpeek := h.peekAt 0 out
      rw [show (0 : BitVec w).toNat = 0 from BitVec.toNat_zero, ← List.head?_eq_getElem?] at hpeek
      rw [StackBox.request, VectorCore.peekFront, hpeek]
      exact .peekFront
  | peekBack out =>
    cases out with
    | none => exact ⟨d, .peekNull (.inr (.inl rfl)), h⟩
    | some out =>
      refine ⟨d, ?_, h⟩
      rw [StackBox.request, h.peekBack]
      exact .peekBack
  | peekAt index out =>
    cases out with
    | none => exact ⟨d, .peekNull (.inr (.inr ⟨index, rfl⟩)), h⟩
    | some out =>
      refine ⟨d, ?_, h⟩
      rw [StackBox.request, h.peekAt]
      exact .peekAt
  | foreach visit =>
    refine ⟨d, ?_, h⟩
    rw [StackBox.request, h.foreach]
    exact .visited
  | size => exact ⟨d, .size h.length.symm, h⟩
  | capacity => exact ⟨d, .capacity h.room, h⟩
  | empty =>
    refine ⟨d, ?_, h⟩
    have hempty : decide (s.1.core.size = 0) = d.items.isEmpty := by
      rw [Bool.eq_iff_iff, decide_eq_true_eq, h.size_eq_zero, List.isEmpty_iff]
    rw [StackBox.request, hempty]
    exact .empty
  | full =>
    refine ⟨d, ?_, h⟩
    have hfull : s.1.full = (!d.growable && decide (d.items.length = d.room)) := by
      -- `full` asks for `size_ >= capacity_`, and the elements are never more than the room
      have hle := h.length_le
      rw [StackBox.full, h.growable]
      cases d.growable
      · rw [Bool.eq_iff_iff]
        simp [BitVec.le_def, h.room, ← h.length]
        omega
      · rfl
    rw [StackBox.request, hfull]
    exact .full

/-- Calls on a growable stack over storage for two elements: the third push grows into the heap, and
its element cannot be copied there. -/
def pairRequests : List (Request 16 ℕ) :=
  [.call (.init pairConfig), .call (.push (some 1)), .call (.push (some 2)), .peekBack (some 0),
    .full, .call (.push (some 3)), .capacity, .call (.push (some 3)), .call (.pop (some 0)),
    .foreach fun _ => .ok]

theorem faithful_wordStack : wordStack.policy.Faithful := by
  intro n dst src hok
  by_cases hn : n = 4
  · rw [show wordStack.policy.copyFn n dst src = (.invalid, dst) from if_pos hn] at hok
    cases hok
  · rw [show wordStack.policy.copyFn n dst src = (.ok, src) from if_neg hn]

theorem realBlocks_wordStack : RealBlocks wordStack where
  heap _ _ hgrants := of_decide_eq_true hgrants
  arena arena n bytes number hanswer := by
    by_contra hlarge
    rw [show wordStack.arenaAllocate arena n bytes = .error .oom from if_neg hlarge] at hanswer
    cases hanswer

end StackBox

end Memkit
