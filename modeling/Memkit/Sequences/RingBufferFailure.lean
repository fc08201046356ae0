import Memkit.Sequences.RingBufferRegions

/-! # Calls of the ring buffer that fail

A full buffer that overwrites gives up the element at the far end, and destroys it, before the new
one is copied into its slot; when that copy fails the element is gone. In every other way in which a
push, a pop or `reserve` can fail, the elements are as before.

* **`Unchanged`** — the same elements, in counters that fit each other.
* **`PushBackAtomic`, `PushFrontAtomic`** — when a push that fails has changed nothing.
* **`ring_failures_keep_iff`** — in every state. -/

namespace Memkit

namespace RingBuffer

open Mealy

variable {w : ℕ} {V : Type*} {cfg : RingConfig w V} {s t : RingBuffer w V}

/-! ## The condition -/

/-- The elements are the same, in the same order, and the counters fit each other. -/
structure Unchanged (s t : RingBuffer w V) : Prop where
  inv : t.Inv
  items : t.items = s.items

/-- A full buffer that does not grow gives up an element. -/
def Overwrites (cfg : RingConfig w V) (s : RingBuffer w V) (allowed : Bool) : Prop :=
  s.capacity ≤ s.count ∧ cfg.growable = false ∧ allowed = true

instance (cfg : RingConfig w V) (s : RingBuffer w V) (allowed : Bool) :
    Decidable (Overwrites cfg s allowed) :=
  inferInstanceAs (Decidable (_ ∧ _ ∧ _))

/-- The copy over the destroyed first element, if there is one, does not fail. -/
def PushBackAtomic (cfg : RingConfig w V) (s : RingBuffer w V) : Option V → Bool → Prop
  | none, _ => True
  | some elem, allowOverwrite =>
    Overwrites cfg s (allowOverwrite || cfg.overwriteOnFull) →
      ((destroySlot cfg s (s.slotAt s.tail)).cells.copyConstruct cfg.policy (s.slotAt s.head)
        elem).1 = .ok

/-- The copy over the destroyed last element, if there is one, does not fail. -/
def PushFrontAtomic (cfg : RingConfig w V) (s : RingBuffer w V) : Option V → Prop
  | none => True
  | some elem =>
    Overwrites cfg s cfg.overwriteOnFull →
      ((destroySlot cfg s (s.slotAt (s.retreat s.head))).cells.copyConstruct cfg.policy
        (s.slotAt (s.retreat s.tail)) elem).1 = .ok

/-! ## Room -/

/-- A buffer of this size is full, and has an element to give up. -/
theorem Inv.count_ne_zero (h : s.Inv) (hfull : s.capacity ≤ s.count) : s.count ≠ 0 := by
  intro h0
  have hpos := h.indices.capacity_pos
  rw [BitVec.le_def, h0, show (0 : BitVec w).toNat = 0 from BitVec.toNat_zero] at hfull
  omega

/-- A push that gives up an element first: when its copy fails, there is one element less. -/
theorem keeps_iff_of_given_up {r : Status × RingBuffer w V} {st : Status} {u : RingBuffer w V}
    (hcount : s.count ≠ 0) (heq : r = if st ≠ .ok then (st, t) else (.ok, u))
    (hless : t.count = s.count - 1) : (r.1 ≠ .ok → Unchanged s r.2) ↔ st = .ok := by
  subst heq
  by_cases hst : st = .ok
  · rw [if_neg (not_not.mpr hst)]
    exact iff_of_true (fun hnot => absurd rfl hnot) hst
  · rw [if_pos hst]
    refine iff_of_false (fun hkeeps => ?_) hst
    have hlength := congrArg List.length (hkeeps hst).items
    have hpred := WrapCounter.toNat_pred hcount
    rw [length_items, length_items, hless] at hlength
    omega

/-- Unless an element is given up, making room keeps the elements. -/
theorem makeRoom_items (h : s.Inv) {allowed : Bool} (hkeeps : ¬ Overwrites cfg s allowed)
    (rest : List V) :
    (Deque.makeRoom cfg ⟨s.items, s.capacity.toNat, s.allocs⟩ allowed rest).2.items = s.items := by
  unfold Deque.makeRoom
  by_cases hroom : s.items.length < s.capacity.toNat
  · rw [if_pos hroom]
  rw [if_neg hroom]
  by_cases hgrowable : cfg.growable = true
  · rw [if_pos hgrowable]
    unfold Deque.grow
    dsimp only
    split
    · rfl
    · rfl
  rw [if_neg hgrowable]
  by_cases hallowed : allowed = true
  · have hover : Overwrites cfg s allowed :=
      ⟨h.represents.full_iff.mpr hroom, Bool.eq_false_of_not_eq_true hgrowable, hallowed⟩
    exact absurd hover hkeeps
  · rw [if_neg hallowed]

/-! ## Pushes -/

/-- `push_back` over the first element. -/
theorem pushBack_overwrites (h : s.Inv) {allowOverwrite : Bool}
    (hover : Overwrites cfg s (allowOverwrite || cfg.overwriteOnFull)) (elem : V) :
    ∃ t u : RingBuffer w V,
      (pushBack cfg s (some elem) allowOverwrite =
        if ((destroySlot cfg s (s.slotAt s.tail)).cells.copyConstruct cfg.policy (s.slotAt s.head)
            elem).1 ≠ .ok then
          (((destroySlot cfg s (s.slotAt s.tail)).cells.copyConstruct cfg.policy (s.slotAt s.head)
            elem).1, t)
        else (.ok, u)) ∧
        t.count = s.count - 1 := by
  rw [pushBack_eq h.capacity_ne, makeRoomBack, if_pos hover.1, if_neg (by simp [hover.2.1]),
    if_pos hover.2.2, destroySlot_eq]
  exact ⟨_, _, rfl, rfl⟩

/-- `push_front` over the last element. -/
theorem pushFront_overwrites (hover : Overwrites cfg s cfg.overwriteOnFull) (elem : V) :
    ∃ t u : RingBuffer w V,
      (pushFront cfg s (some elem) =
        if ((destroySlot cfg s (s.slotAt (s.retreat s.head))).cells.copyConstruct cfg.policy
            (s.slotAt (s.retreat s.tail)) elem).1 ≠ .ok then
          (((destroySlot cfg s (s.slotAt (s.retreat s.head))).cells.copyConstruct cfg.policy
            (s.slotAt (s.retreat s.tail)) elem).1, t)
        else (.ok, u)) ∧
        t.count = s.count - 1 := by
  rw [RingBuffer.pushFront, makeRoomFront, if_pos hover.1, if_neg (by simp [hover.2.1]),
    if_pos hover.2.2, destroySlot_eq]
  exact ⟨_, _, rfl, rfl⟩

/-- **A `push_back` that fails** has changed nothing exactly if it does not lose the element that it
overwrites. -/
theorem pushBack_keeps_iff (h : s.Inv) (elem : Option V) (allowOverwrite : Bool)
    (hfit : SizesFit cfg s (.pushBack elem allowOverwrite)) :
    ((pushBack cfg s elem allowOverwrite).1 ≠ .ok →
        Unchanged s (pushBack cfg s elem allowOverwrite).2) ↔
      PushBackAtomic cfg s elem allowOverwrite := by
  cases elem with
  | none => exact iff_of_true (fun _ => ⟨h, rfl⟩) trivial
  | some elem =>
    unfold PushBackAtomic
    by_cases hover : Overwrites cfg s (allowOverwrite || cfg.overwriteOnFull)
    · -- the first element is destroyed before the copy
      obtain ⟨t, u, heq, hless⟩ := pushBack_overwrites h hover elem
      have hiff := keeps_iff_of_given_up (h.count_ne_zero hover.1) heq hless
      exact ⟨fun hkeeps _ => hiff.mp hkeeps, fun hgood => hiff.mpr (hgood hover)⟩
    · refine iff_of_true (fun hfailed => ⟨h.pushBack _ _ hfit, ?_⟩) fun hlost => absurd hlost hover
      obtain ⟨-, hrep, hroom⟩ :=
        h.represents.makeRoomBack allowOverwrite (fits_of_requested hfit rfl)
      have hitems := hrep.items.trans (makeRoom_items h hover _)
      rw [pushBack_eq h.capacity_ne] at hfailed ⊢
      revert hfailed
      generalize makeRoomBack cfg s allowOverwrite = room at hrep hroom hitems ⊢
      obtain ⟨st, t⟩ := room
      by_cases hst : st ≠ .ok
      · simp only [if_pos hst]
        exact fun _ => hitems
      simp only [if_neg hst]
      by_cases hcopy : (t.cells.copyConstruct cfg.policy (t.slotAt t.head) elem).1 ≠ .ok
      · -- the slot after the last element is written
        rw [if_pos hcopy]
        intro
        have hnot := (hrep.inv.indices.push_back (hroom (not_not.mp hst))).2.2
        exact (Cells.map_update_of_notMem hnot _).trans hitems
      · rw [if_neg hcopy]
        exact fun hnot => absurd rfl hnot

/-- **A `push_front` that fails**, likewise. -/
theorem pushFront_keeps_iff (h : s.Inv) (elem : Option V)
    (hfit : SizesFit cfg s (.pushFront elem)) :
    ((pushFront cfg s elem).1 ≠ .ok → Unchanged s (pushFront cfg s elem).2) ↔
      PushFrontAtomic cfg s elem := by
  cases elem with
  | none => exact iff_of_true (fun _ => ⟨h, rfl⟩) trivial
  | some elem =>
    unfold PushFrontAtomic
    by_cases hover : Overwrites cfg s cfg.overwriteOnFull
    · -- the last element is destroyed before the copy
      obtain ⟨t, u, heq, hless⟩ := pushFront_overwrites hover elem
      have hiff := keeps_iff_of_given_up (h.count_ne_zero hover.1) heq hless
      exact ⟨fun hkeeps _ => hiff.mp hkeeps, fun hgood => hiff.mpr (hgood hover)⟩
    · refine iff_of_true (fun hfailed => ⟨h.pushFront _ hfit, ?_⟩) fun hlost => absurd hlost hover
      obtain ⟨-, hrep, hroom⟩ := h.represents.makeRoomFront (fits_of_requested hfit rfl)
      have hitems := hrep.items.trans (makeRoom_items h hover _)
      rw [RingBuffer.pushFront] at hfailed ⊢
      revert hfailed
      generalize makeRoomFront cfg s = room at hrep hroom hitems ⊢
      obtain ⟨st, t⟩ := room
      by_cases hst : st ≠ .ok
      · simp only [if_pos hst]
        exact fun _ => hitems
      simp only [if_neg hst]
      have htail := hrep.inv.indices.advance_retreat hrep.inv.indices.tail_lt
      by_cases hcopy :
          (t.cells.copyConstruct cfg.policy (t.slotAt (t.retreat t.tail)) elem).1 ≠ .ok
      · -- the slot before the first element is written, and the tail goes back
        intro
        have hslots : RingIndices.slots { t.toRingIndices with
            tail := t.advance (t.retreat t.tail) 1 } = t.slots := by
          rw [htail]
        have hnot := (hrep.inv.indices.push_front (hroom (not_not.mp hst))).2.2
        refine (congrArg (fun r : Status × RingBuffer w V => r.2.items) (if_pos hcopy)).trans ?_
        show List.map (Function.update t.cells.contents (t.slotAt (t.retreat t.tail)) _)
          (RingIndices.slots { t.toRingIndices with tail := t.advance (t.retreat t.tail) 1 }) = _
        rw [hslots]
        exact (Cells.map_update_of_notMem hnot _).trans hitems
      · intro hnot
        exact absurd (congrArg Prod.fst (if_neg hcopy)) hnot

/-! ## Pops and growth -/

/-- **A `pop_front` that fails** has changed nothing. -/
theorem popFront_keeps (h : s.Inv) (out : Option V) (hfailed : (popFront cfg s out).1.1 ≠ .ok) :
    Unchanged s (popFront cfg s out).2 := by
  refine ⟨h.popFront out, ?_⟩
  unfold popFront at hfailed ⊢
  by_cases hcount : s.count = 0
  · rw [if_pos hcount]
  rw [if_neg hcount] at hfailed ⊢
  cases out with
  | none => exact absurd rfl hfailed
  | some out =>
    dsimp only [extractSlot] at hfailed ⊢
    split at hfailed
    · next hst =>
      rw [if_pos hst]
      rfl
    · exact absurd rfl hfailed

/-- **A `pop_back` that fails** has changed nothing. -/
theorem popBack_keeps (h : s.Inv) (out : Option V) (hfailed : (popBack cfg s out).1.1 ≠ .ok) :
    Unchanged s (popBack cfg s out).2 := by
  refine ⟨h.popBack out, ?_⟩
  unfold popBack at hfailed ⊢
  by_cases hcount : s.count = 0
  · rw [if_pos hcount]
  rw [if_neg hcount] at hfailed ⊢
  cases out with
  | none => exact absurd rfl hfailed
  | some out =>
    dsimp only [extractSlot] at hfailed ⊢
    split at hfailed
    · next hst =>
      rw [if_pos hst]
      rfl
    · exact absurd rfl hfailed

/-- **A `reserve` that fails** has changed nothing. -/
theorem reserve_keeps (h : s.Inv) (minCapacity : BitVec w)
    (hfailed : (reserve cfg s minCapacity).1 ≠ .ok) :
    Unchanged s (reserve cfg s minCapacity).2 := by
  have hself : Unchanged s s := ⟨h, rfl⟩
  unfold reserve at hfailed ⊢
  split at hfailed
  · exact absurd rfl hfailed
  next hle =>
  rw [if_neg hle]
  split at hfailed
  · next hgrowable =>
    rw [if_pos hgrowable]
    exact hself
  next hgrowable =>
  rw [if_neg hgrowable]
  unfold relinearize at hfailed ⊢
  split at hfailed
  · next hless =>
    rw [if_pos hless]
    exact hself
  next hless =>
  rw [if_neg hless]
  dsimp only at hfailed ⊢
  split at hfailed
  · -- the allocator was asked in vain
    next hst =>
    rw [if_pos hst]
    exact ⟨⟨h.indices, Nat.le_succ_of_le h.block_le⟩, rfl⟩
  · exact absurd rfl hfailed

/-- **When a call that fails has changed nothing**, after any calls and uses of the regions, for
every policy for a full buffer, and whatever the copies and the allocator do. -/
theorem ring_failures_keep_iff (cfg : RingConfig w V) (memory : ℕ × ℕ → V)
    (calls : List (RegionCall w V))
    (hfit : EveryCall (regionCall cfg) (RegionFits cfg) (init cfg memory) calls)
    (s : RingBuffer w V) (hs : final (regionCall cfg) (init cfg memory) calls = s) :
    (∀ elem allowOverwrite, SizesFit cfg s (.pushBack elem allowOverwrite) →
        (((pushBack cfg s elem allowOverwrite).1 ≠ .ok →
          Unchanged s (pushBack cfg s elem allowOverwrite).2) ↔
        PushBackAtomic cfg s elem allowOverwrite)) ∧
      (∀ elem, SizesFit cfg s (.pushFront elem) →
        (((pushFront cfg s elem).1 ≠ .ok → Unchanged s (pushFront cfg s elem).2) ↔
        PushFrontAtomic cfg s elem)) ∧
      (∀ out, (popFront cfg s out).1.1 ≠ .ok → Unchanged s (popFront cfg s out).2) ∧
      (∀ out, (popBack cfg s out).1.1 ≠ .ok → Unchanged s (popBack cfg s out).2) ∧
      ∀ minCapacity, (reserve cfg s minCapacity).1 ≠ .ok →
        Unchanged s (reserve cfg s minCapacity).2 := by
  have h := inv_regionCalls cfg memory calls hfit
  rw [hs] at h
  exact ⟨pushBack_keeps_iff h, pushFront_keeps_iff h, popFront_keeps h, popBack_keeps h,
    reserve_keeps h⟩

/-- A buffer of two slots that overwrites, whose third copy fails. -/
def lossyRing : RingConfig 16 ℕ :=
  { pairRing with
    policy :=
      { copyFn := fun n dst src => if n = 2 then (.invalid, dst) else (.ok, src)
        destroyFn := id }
    growable := false
    overwriteOnFull := true }

/-- A pop from two elements whose copy to the caller fails leaves both. -/
theorem ring_failures_keep_two :
    (popBack lossyRing (final (regionCall lossyRing) (init lossyRing fun _ => 0)
        [.interface (.pushBack (some 1) false), .interface (.pushBack (some 2) false)])
        (some 0)).1.1 = .invalid ∧
      (popBack lossyRing (final (regionCall lossyRing) (init lossyRing fun _ => 0)
        [.interface (.pushBack (some 1) false), .interface (.pushBack (some 2) false)])
        (some 0)).2.items = [1, 2] := by
  obtain ⟨-, -, -, hpop, -⟩ := ring_failures_keep_iff lossyRing (fun _ => 0)
    [.interface (.pushBack (some 1) false), .interface (.pushBack (some 2) false)]
    (by decide +kernel) _ rfl
  exact ⟨by decide +kernel, (hpop (some 0) (by decide +kernel)).items.trans (by decide +kernel)⟩

/-- **A lost element**: the buffer is full, the copy of a third element over the first one fails,
and the first one is gone. -/
theorem failed_push_loses_element :
    let s := final (regionCall lossyRing) (init lossyRing fun _ => 0)
      [.interface (.pushBack (some 1) false), .interface (.pushBack (some 2) false)]
    (pushBack lossyRing s (some 3) false).1 = .invalid ∧
      s.items = [1, 2] ∧ (pushBack lossyRing s (some 3) false).2.items = [2] := by
  decide +kernel

end RingBuffer

end Memkit
