import Memkit.Pools.HandlePool

/-! # Handle validity and liveness

`valid`, `get` and `release` decide from the stamp alone. `PoolInv` says what the two arrays and
the counters mean for the handles held: free slots and held slots together are all slots, once
each, and a held handle carries its slot's generation. From it a handle is accepted exactly when it
is held or **pending**: its slot is free and already bears the handle's generation. The fresh pool
has pending handles (its generations are zero), and so has every slot after a release. A session in
which no call names a pending handle is lawful throughout. -/

namespace Memkit

namespace HandlePool

variable {w : ℕ} {p : HandlePool w} {s : Session w} {h : Handle}

/-- A nonzero handle whose slot is on the free stack and bears the handle's generation. -/
def Pending (p : HandlePool w) (handle : Handle) : Prop :=
  handle ≠ invalidHandle ∧ slotOf handle ∈ freeSlots p ∧
    p.generations (slotOf handle) = handleGeneration handle

instance (p : HandlePool w) (handle : Handle) : Decidable (Pending p handle) :=
  inferInstanceAs (Decidable (_ ∧ _ ∧ _))

/-- The handle that a call asks the pool to accept. -/
def Call.asked : Call → Option Handle
  | .release handle => some handle
  | .get handle true => some handle
  | .valid handle => some handle
  | _ => none

/-- The call does not ask for a pending handle. -/
def NotPending (s : Session w) (c : Call) : Prop := ∀ handle ∈ c.asked, ¬ Pending s.pool handle

instance (s : Session w) (c : Call) : Decidable (NotPending s c) :=
  match hc : c.asked with
  | none => isTrue (by simp [NotPending, hc])
  | some handle => decidable_of_iff (¬ Pending s.pool handle) (by simp [NotPending, hc])

/-- A reply that accepts the handle. -/
def Reply.accepts : Reply w → Bool
  | .release .ok => true
  | .get .ok _ => true
  | .valid answer => answer
  | _ => false

/-- The call accepts the handle it asks for exactly when that handle is held. -/
def AnswersRight (s : Session w) (c : Call) : Prop :=
  ∀ handle ∈ c.asked, (s.pool.call c).1.accepts = true ↔ handle ∈ s.live

/-- What a pool owes its callers between calls. -/
structure Sound (s : Session w) : Prop where
  free_nodup : (freeSlots s.pool).Nodup
  free_le : s.pool.freeCount.toNat ≤ s.pool.capacity.toNat
  free_lt : ∀ i < s.pool.freeCount.toNat, (s.pool.freeStack i).toNat < s.pool.capacity.toNat
  conserved : s.pool.liveCount.toNat + s.pool.freeCount.toNat = s.pool.capacity.toNat
  live_count : s.live.length = s.pool.liveCount.toNat
  separate : s.live.Pairwise fun h h' => slotOf h ≠ slotOf h'

/-- The invariant of a session. -/
structure PoolInv (s : Session w) : Prop where
  cap_le : s.pool.capacity.toNat ≤ 2 ^ 16
  slots : (freeSlots s.pool ++ s.live.map slotOf).Perm (List.range s.pool.capacity.toNat)
  count : s.live.length = s.pool.liveCount.toNat
  stamp : ∀ h ∈ s.live, s.pool.generations (slotOf h) = handleGeneration h
  stamp_ne : ∀ h ∈ s.live, handleGeneration h ≠ 0

/-! ## What is accepted -/

theorem valid_iff :
    p.valid h = true ↔ h ≠ invalidHandle ∧ slotOf h < p.capacity.toNat ∧
      p.generations (slotOf h) = handleGeneration h := by
  simp [valid, stampMatches, slotOf]

/-- `release` succeeds exactly on what `valid` accepts. -/
theorem release_accepts : (p.release h).1.accepts = p.valid h := by
  by_cases h0 : h = invalidHandle
  · simp [release, valid, h0, Reply.accepts]
  · by_cases hm : p.stampMatches h = true
    · simp [release, valid, h0, hm, Reply.accepts]
    · simp [release, valid, h0, hm, Reply.accepts]

/-- `get` succeeds exactly on what `valid` accepts. -/
theorem get_accepts : (p.get h true).accepts = p.valid h := by
  by_cases h0 : h = invalidHandle
  · simp [get, valid, h0, Reply.accepts]
  · by_cases hm : p.stampMatches h = true
    · simp [get, valid, h0, hm, Reply.accepts]
    · simp [get, valid, h0, hm, Reply.accepts]

/-- The three calls that ask for a handle accept the same ones. -/
theorem call_accepts {c : Call} (hc : h ∈ c.asked) : (p.call c).1.accepts = p.valid h := by
  cases c with
  | acquire hasOuts => cases hc
  | release handle =>
    obtain rfl : handle = h := by simpa [Call.asked] using hc
    exact release_accepts
  | get handle hasOut =>
    cases hasOut with
    | false => cases hc
    | true =>
      obtain rfl : handle = h := by simpa [Call.asked] using hc
      exact get_accepts
  | valid handle =>
    obtain rfl : handle = h := by simpa [Call.asked] using hc
    rfl

namespace PoolInv

/-- Free slots and held handles add up to the capacity. -/
theorem free_add_live (hinv : PoolInv s) :
    s.pool.freeCount.toNat + s.live.length = s.pool.capacity.toNat := by
  simpa [freeSlots] using hinv.slots.length_eq

theorem nodup (hinv : PoolInv s) : (freeSlots s.pool ++ s.live.map slotOf).Nodup :=
  hinv.slots.nodup_iff.mpr List.nodup_range

/-- A free slot is not held. -/
theorem not_free_of_live (hinv : PoolInv s) (hlive : h ∈ s.live) :
    slotOf h ∉ freeSlots s.pool := by
  intro hfree
  exact List.disjoint_of_nodup_append hinv.nodup hfree (List.mem_map_of_mem hlive)

/-- Two held handles with one slot are one handle. -/
theorem live_inj (hinv : PoolInv s) {h' : Handle} (hlive : h ∈ s.live) (hlive' : h' ∈ s.live)
    (hslot : slotOf h = slotOf h') : h = h' := by
  have hindex : handleIndex h = handleIndex h' := BitVec.eq_of_toNat_eq hslot
  apply handle_ext hindex
  rw [← hinv.stamp h hlive, ← hinv.stamp h' hlive', hslot]

/-- **What the stamp test accepts**: the held handles and the pending ones. -/
theorem valid_iff_live_or_pending (hinv : PoolInv s) :
    s.pool.valid h = true ↔ h ∈ s.live ∨ Pending s.pool h := by
  rw [valid_iff]
  constructor
  · rintro ⟨hne, hlt, hgen⟩
    have hmem : slotOf h ∈ freeSlots s.pool ++ s.live.map slotOf :=
      hinv.slots.mem_iff.mpr (List.mem_range.mpr hlt)
    rcases List.mem_append.mp hmem with hfree | hheld
    · exact .inr ⟨hne, hfree, hgen⟩
    · obtain ⟨h', hlive, hslot⟩ := List.mem_map.mp hheld
      have hindex : handleIndex h' = handleIndex h := BitVec.eq_of_toNat_eq hslot
      have hstamp := hinv.stamp h' hlive
      rw [hslot, hgen] at hstamp
      obtain rfl : h' = h := handle_ext hindex hstamp.symm
      exact .inl hlive
  · have hbound : ∀ i ∈ freeSlots s.pool ++ s.live.map slotOf, i < s.pool.capacity.toNat :=
      fun i hi => List.mem_range.mp (hinv.slots.mem_iff.mp hi)
    rintro (hlive | ⟨hne, hfree, hgen⟩)
    · refine ⟨ne_invalidHandle (hinv.stamp_ne h hlive), ?_, hinv.stamp h hlive⟩
      exact hbound _ (List.mem_append_right _ (List.mem_map_of_mem hlive))
    · exact ⟨hne, hbound _ (List.mem_append_left _ hfree), hgen⟩

/-- The stamp test is right about a handle exactly when the handle is not pending. -/
theorem valid_right_iff (hinv : PoolInv s) :
    (s.pool.valid h = true ↔ h ∈ s.live) ↔ ¬ Pending s.pool h := by
  rw [hinv.valid_iff_live_or_pending]
  constructor
  · intro hright hpend
    exact hinv.not_free_of_live (hright.mp (.inr hpend)) hpend.2.1
  · intro hpend
    exact or_iff_left hpend

/-- A call answers right exactly when it does not ask for a pending handle. -/
theorem answersRight_iff (hinv : PoolInv s) (c : Call) : AnswersRight s c ↔ NotPending s c := by
  unfold AnswersRight NotPending
  constructor
  · intro hright handle hc
    have hiff := hright handle hc
    rw [call_accepts hc] at hiff
    exact hinv.valid_right_iff.mp hiff
  · intro hpend handle hc
    rw [call_accepts hc]
    exact hinv.valid_right_iff.mpr (hpend handle hc)

/-- The invariant gives what a pool owes its callers. -/
theorem sound (hinv : PoolInv s) : Sound s where
  free_nodup := (List.nodup_append.mp hinv.nodup).1
  free_le := by
    have hsum := hinv.free_add_live
    omega
  free_lt := by
    intro i hi
    have hmem : (s.pool.freeStack i).toNat ∈ freeSlots s.pool :=
      List.mem_map.mpr ⟨i, List.mem_range.mpr hi, rfl⟩
    exact List.mem_range.mp (hinv.slots.mem_iff.mp (List.mem_append_left _ hmem))
  conserved := by
    have hsum := hinv.free_add_live
    have hcount := hinv.count
    omega
  live_count := hinv.count
  separate := by
    have hnodup := (List.nodup_append.mp hinv.nodup).2.1
    exact (List.pairwise_map.mp hnodup).imp fun hne => hne

end PoolInv

/-! ## The fresh pool -/

/-- A freshly initialised pool satisfies the invariant with no handle held. -/
theorem poolInv_init {hasStorage : Bool} {generations : ℕ → BitVec 16}
    {freeStack : ℕ → BitVec 32} {capacity elemSize : BitVec w}
    (hinit : init hasStorage generations freeStack capacity elemSize = .ok p) :
    PoolInv ⟨p, []⟩ := by
  obtain ⟨-, hcap, hfree, hlive, -, hstack⟩ := init_spec hinit
  refine ⟨hcap, ?_, by simp [hlive], by simp, by simp⟩
  have hslots : freeSlots p = (List.range p.capacity.toNat).reverse := by
    rw [freeSlots, hfree, List.range_eq_range', List.reverse_range', ← List.range_eq_range']
    apply List.map_congr_left
    intro i hi
    rw [(hstack i (List.mem_range.mp hi)).1]
    omega
  rw [List.map_nil, List.append_nil, hslots]
  exact List.reverse_perm _

/-! ## One call -/

@[simp] theorem slotOf_makeHandle (index generation : BitVec 16) :
    slotOf (makeHandle index generation) = index.toNat := by
  rw [slotOf, handleIndex_makeHandle]

/-- `acquire` gives out no generation 0. -/
theorem generation_ne_zero {g generation : BitVec 16}
    (hgen : generation = if g = 0 then 1 else g) : generation ≠ 0 := by
  rw [hgen]
  split
  · decide
  · assumption

/-- The free stack is its lower part and its top. -/
theorem freeSlots_eq_concat (hfree : p.freeCount ≠ 0) :
    freeSlots p =
      freeSlots { p with freeCount := p.freeCount - 1 } ++
        [(p.freeStack (p.freeCount - 1).toNat).toNat] := by
  rw [freeSlots, freeSlots, ← WrapCounter.toNat_pred hfree, List.range_succ, List.map_append]
  rfl

/-- What `acquire` does when a slot is free: the top of the free stack goes out with its generation,
or with generation one when it had none. -/
theorem PoolInv.acquire_spec (hinv : PoolInv s) (hfree : s.pool.freeCount ≠ 0) :
    ∃ (index : BitVec 16) (generations : ℕ → BitVec 16),
      s.pool.acquire true =
        (.acquire .ok (some (s.pool.slotPtr (index.setWidth 32)))
            (makeHandle index (generations index.toNat)),
          { s.pool with
            generations
            liveCount := s.pool.liveCount + 1
            freeCount := s.pool.freeCount - 1 }) ∧
      freeSlots s.pool =
        freeSlots { s.pool with freeCount := s.pool.freeCount - 1 } ++ [index.toNat] ∧
      (∀ i ≠ index.toNat, generations i = s.pool.generations i) ∧
      generations index.toNat =
        if s.pool.generations index.toNat = 0 then 1 else s.pool.generations index.toNat := by
  have hslots := freeSlots_eq_concat hfree
  generalize hindex : s.pool.freeStack (s.pool.freeCount - 1).toNat = index at hslots
  have hlt : index.toNat < s.pool.capacity.toNat := by
    apply List.mem_range.mp
    rw [← hinv.slots.mem_iff, hslots]
    simp
  have hcap := hinv.cap_le
  -- an index of the pool fits the 16 bits of a handle
  have hword : (index.setWidth 16).toNat = index.toNat := by
    rw [BitVec.toNat_setWidth]
    exact Nat.mod_eq_of_lt (by omega)
  have hback : (index.setWidth 16).setWidth 32 = index := by
    apply BitVec.eq_of_toNat_eq
    rw [BitVec.toNat_setWidth, hword]
    exact Nat.mod_eq_of_lt index.isLt
  unfold acquire
  simp only [Bool.true_eq_false, if_false, hfree, hindex, Nat.not_le.mpr hlt]
  -- a slot that was never acquired starts with generation one
  by_cases hzero : s.pool.generations index.toNat = 0
  · refine ⟨index.setWidth 16, Function.update s.pool.generations index.toNat 1, ?_, ?_, ?_, ?_⟩
    · simp only [hzero, if_true, hback, hword, Function.update_self]
      rfl
    · rw [hword, hslots]
    · intro i hi
      rw [hword] at hi
      exact Function.update_of_ne hi _ _
    · rw [hword, Function.update_self, if_pos hzero]
  · refine ⟨index.setWidth 16, s.pool.generations, ?_, ?_, fun _ _ => rfl, ?_⟩
    · simp only [hzero, if_false, hback, hword]
      rfl
    · rw [hword, hslots]
    · rw [hword, if_neg hzero]

/-- `acquire` keeps the invariant: the top of the free stack becomes the slot of the new handle. -/
theorem PoolInv.keep_acquire (hinv : PoolInv s) (hasOuts : Bool) :
    PoolInv (s.call (.acquire hasOuts)).2 := by
  by_cases hnull : hasOuts = false
  · simpa [Session.call, HandlePool.call, HandlePool.acquire, hnull, track] using hinv
  by_cases hempty : s.pool.freeCount = 0
  · simpa [Session.call, HandlePool.call, HandlePool.acquire, hnull, hempty, track] using hinv
  obtain rfl : hasOuts = true := by simpa using hnull
  obtain ⟨index, gens, hacquire, hfree, hothers, hgen⟩ := hinv.acquire_spec hempty
  have hslots := hinv.slots
  have hnodup := hinv.nodup
  rw [hfree, List.append_assoc, List.singleton_append] at hslots hnodup
  have hfresh : ∀ handle ∈ s.live, slotOf handle ≠ index.toNat := by
    intro handle hlive hslot
    have hnotin := (List.nodup_cons.mp (List.nodup_append.mp hnodup).2.1).1
    exact hnotin (hslot ▸ List.mem_map_of_mem hlive)
  have hslot := slotOf_makeHandle index (gens index.toNat)
  have hnz := generation_ne_zero hgen
  simp only [Session.call, HandlePool.call, hacquire, track]
  refine ⟨hinv.cap_le, ?_, ?_, ?_, ?_⟩
  · rw [List.map_cons, hslot]
    exact hslots
  · have hsum := hinv.free_add_live
    have hcount := hinv.count
    have hpred := WrapCounter.toNat_pred hempty
    have hsucc : (s.pool.liveCount + 1).toNat = s.pool.liveCount.toNat + 1 :=
      WrapCounter.toNat_succ (c := s.pool.capacity) (by omega)
    rw [List.length_cons, hsucc, hcount]
  · intro handle hmem
    rcases List.mem_cons.mp hmem with rfl | hmem
    · show gens (slotOf _) = _
      rw [hslot, handleGeneration_makeHandle]
    · show gens (slotOf handle) = _
      rw [hothers _ (hfresh handle hmem)]
      exact hinv.stamp handle hmem
  · intro handle hmem
    rcases List.mem_cons.mp hmem with rfl | hmem
    · rwa [handleGeneration_makeHandle]
    · exact hinv.stamp_ne handle hmem

/-- `bump_generation` changes one generation and nothing else. -/
theorem bumpGeneration_spec (p : HandlePool w) (index : BitVec 16) :
    ∃ generations, p.bumpGeneration index = { p with generations } ∧
      (∀ i ≠ index.toNat, generations i = p.generations i) ∧
      generations index.toNat =
        if p.generations index.toNat = 0xFFFF then 1 else p.generations index.toNat + 1 := by
  unfold bumpGeneration
  split
  · exact ⟨_, rfl, fun i hi => Function.update_of_ne hi _ _, Function.update_self ..⟩
  · exact ⟨_, rfl, fun i hi => Function.update_of_ne hi _ _, Function.update_self ..⟩

/-- A handle that `valid` accepts is taken back: its slot goes on the free stack with the next
generation. -/
theorem release_of_valid (hvalid : p.valid h = true) :
    ∃ generations, p.release h =
        (.release .ok,
          { p with
            generations
            freeStack := Function.update p.freeStack p.freeCount.toNat ((handleIndex h).setWidth 32)
            freeCount := p.freeCount + 1
            liveCount := p.liveCount - 1 }) ∧
      (∀ i ≠ slotOf h, generations i = p.generations i) ∧
      generations (slotOf h) =
        if p.generations (slotOf h) = 0xFFFF then 1 else p.generations (slotOf h) + 1 := by
  obtain ⟨h0, -, -⟩ := valid_iff.mp hvalid
  have hmatch : p.stampMatches h = true := by simpa [valid, h0] using hvalid
  obtain ⟨gens, hbump, hgens⟩ := bumpGeneration_spec p (handleIndex h)
  refine ⟨gens, ?_, hgens⟩
  simp only [release, h0, if_false, hmatch, Bool.true_eq_false, hbump]

/-- A handle that `valid` rejects is not taken back, and nothing changes. -/
theorem release_of_not_valid (hvalid : p.valid h = false) : p.release h = (.release .invalid, p) := by
  by_cases h0 : h = invalidHandle
  · simp [release, h0]
  · have hmatch : p.stampMatches h = false := by simpa [valid, h0] using hvalid
    simp [release, h0, hmatch]

/-- The free stack with one more slot on top. -/
theorem freeSlots_push {slot : BitVec 32} {generations : ℕ → BitVec 16} {liveCount : BitVec w}
    (hsucc : (p.freeCount + 1).toNat = p.freeCount.toNat + 1) :
    freeSlots
        { p with
          generations
          freeStack := Function.update p.freeStack p.freeCount.toNat slot
          freeCount := p.freeCount + 1
          liveCount } =
      freeSlots p ++ [slot.toNat] := by
  simp only [freeSlots, hsucc, List.range_succ, List.map_append, List.map_cons, List.map_nil,
    Function.update_self]
  congr 1
  apply List.map_congr_left
  intro i hi
  rw [Function.update_of_ne (List.mem_range.mp hi).ne]

/-- `release` of a handle that is not pending keeps the invariant: a held handle's slot goes on top
of the free stack, and every other handle is rejected. -/
theorem PoolInv.keep_release (hinv : PoolInv s) (hpend : ¬ Pending s.pool h) :
    PoolInv (s.call (.release h)).2 := by
  by_cases hvalid : s.pool.valid h = true
  · have hlive : h ∈ s.live := (hinv.valid_right_iff.mpr hpend).mp hvalid
    have hfree : slotOf h ∉ freeSlots s.pool := hinv.not_free_of_live hlive
    have hsum := hinv.free_add_live
    have hcount := hinv.count
    have hpos : 0 < s.live.length := List.length_pos_of_mem hlive
    have hlives : s.pool.liveCount ≠ 0 := by
      intro hz
      have hzero : s.pool.liveCount.toNat = 0 := by simp [hz]
      omega
    have hpred := WrapCounter.toNat_pred hlives
    have hsucc : (s.pool.freeCount + 1).toNat = s.pool.freeCount.toNat + 1 :=
      WrapCounter.toNat_succ (c := s.pool.capacity) (by omega)
    have hothers : ∀ handle ∈ s.live.erase h, handle ∈ s.live ∧ slotOf handle ≠ slotOf h := by
      intro handle hmem
      have hnodup : s.live.Nodup := (List.nodup_append.mp hinv.nodup).2.1.of_map
      obtain ⟨hne, hmem⟩ := (hnodup.mem_erase_iff).mp hmem
      exact ⟨hmem, fun hslot => hne (hinv.live_inj hmem hlive hslot)⟩
    obtain ⟨gens, hrelease, hgens, -⟩ := release_of_valid hvalid
    simp only [Session.call, HandlePool.call, hrelease, track]
    refine ⟨hinv.cap_le, ?_, ?_, ?_, ?_⟩
    · have hslot : ((handleIndex h).setWidth 32).toNat = slotOf h := by
        have hlt := (handleIndex h).isLt
        rw [BitVec.toNat_setWidth, slotOf]
        exact Nat.mod_eq_of_lt (by omega)
      show (freeSlots _ ++ _).Perm _
      rw [freeSlots_push hsucc, hslot, List.append_assoc, List.singleton_append, ← List.map_cons]
      exact ((List.perm_cons_erase hlive).symm.map slotOf).append_left _ |>.trans hinv.slots
    · show (s.live.erase h).length = (s.pool.liveCount - 1).toNat
      rw [List.length_erase_of_mem hlive]
      omega
    · intro handle hmem
      obtain ⟨hmem, hne⟩ := hothers handle hmem
      show gens (slotOf handle) = _
      rw [hgens _ hne]
      exact hinv.stamp handle hmem
    · intro handle hmem
      exact hinv.stamp_ne handle (hothers handle hmem).1
  · -- rejected: nothing changes
    have hsame := release_of_not_valid (Bool.eq_false_of_not_eq_true hvalid)
    simpa only [Session.call, HandlePool.call, hsame, track] using hinv

/-- A call that names no pending handle keeps the invariant. -/
theorem PoolInv.keep_call (hinv : PoolInv s) {c : Call} (hpend : NotPending s c) :
    PoolInv (s.call c).2 := by
  cases c with
  | acquire hasOuts => exact hinv.keep_acquire hasOuts
  | release handle => exact hinv.keep_release (hpend handle rfl)
  | get handle hasOut =>
    have hsame : track s.live (.get handle hasOut) (s.pool.get handle hasOut) = s.live := by
      unfold track
      split <;> simp_all
    simpa only [Session.call, HandlePool.call, hsame] using hinv
  | valid handle => exact hinv

/-! ## Whole sessions -/

/-- **Validity is liveness, away from pending handles.** For every capacity that `init` accepts:
every call of a session answers right exactly when no call of it asks for a pending handle; and at
the end of such a session the free stack and the counters are sound, and about any 32-bit handle
at all `valid`, `get` and `release` are each right exactly when it is not pending. -/
theorem answers_right_iff_not_pending {hasStorage : Bool} {generations : ℕ → BitVec 16}
    {freeStack : ℕ → BitVec 32} {capacity elemSize : BitVec w}
    (hinit : init hasStorage generations freeStack capacity elemSize = .ok p)
    (calls : List Call) :
    (Mealy.EveryCall Session.call AnswersRight ⟨p, []⟩ calls ↔
      Mealy.EveryCall Session.call NotPending ⟨p, []⟩ calls) ∧
    (Mealy.EveryCall Session.call NotPending ⟨p, []⟩ calls →
      ∀ s, Mealy.final Session.call ⟨p, []⟩ calls = s → Sound s ∧ ∀ handle,
        ((s.pool.valid handle = true ↔ handle ∈ s.live) ↔ ¬ Pending s.pool handle) ∧
        (((s.pool.get handle true).accepts = true ↔ handle ∈ s.live) ↔
          ¬ Pending s.pool handle) ∧
        (((s.pool.release handle).1.accepts = true ↔ handle ∈ s.live) ↔
          ¬ Pending s.pool handle)) := by
  have hfresh := poolInv_init hinit
  constructor
  · apply Mealy.everyCall_congr PoolInv ?_ ?_ hfresh (Mealy.everyCall_true _ _)
    · intro s c hinv _
      exact hinv.answersRight_iff c
    · intro s c hinv _ hright
      exact hinv.keep_call ((hinv.answersRight_iff c).mp hright)
  · rintro hgood s rfl
    have hinv := hgood.final_invariant PoolInv (fun s c hinv hc => hinv.keep_call hc) hfresh
    refine ⟨hinv.sound, fun handle => ?_⟩
    rw [get_accepts, release_accepts]
    exact ⟨hinv.valid_right_iff, hinv.valid_right_iff, hinv.valid_right_iff⟩

/-- A fresh pool of two four-byte slots with 64-bit sizes. -/
def twoHandles : HandlePool 64 :=
  resetFreeList
    { generations := fun _ => 0, freeStack := fun _ => 0, capacity := 2, elemSize := 4,
      liveCount := 0, freeCount := 2 }

theorem init_twoHandles : init true (fun _ => 0) (fun _ => 0) 2 4 = .ok twoHandles := rfl

/-- Both slots are acquired, one is released, and its stale handle is asked about. -/
theorem answers_right_iff_not_pending_two :
    Mealy.EveryCall Session.call AnswersRight ⟨twoHandles, []⟩
      [.acquire true, .acquire true, .release 0x10000, .valid 0x10000, .get 0x10001 true] ∧
    Sound (Mealy.final Session.call ⟨twoHandles, []⟩
      [.acquire true, .acquire true, .release 0x10000, .valid 0x10000, .get 0x10001 true]) := by
  have hgood : Mealy.EveryCall Session.call NotPending ⟨twoHandles, []⟩
      [.acquire true, .acquire true, .release 0x10000, .valid 0x10000, .get 0x10001 true] := by
    decide
  obtain ⟨hiff, hsound⟩ := answers_right_iff_not_pending init_twoHandles
    [.acquire true, .acquire true, .release 0x10000, .valid 0x10000, .get 0x10001 true]
  exact ⟨hiff.mpr hgood, (hsound hgood _ rfl).1⟩

/-- In a fresh pool the forged handle 1 is valid although nothing was acquired, and releasing it
leaves more free slots than the capacity. -/
theorem forged_handle_accepted :
    init true (fun _ => 0) (fun _ => 0) 2 4 = .ok twoHandles ∧
    twoHandles.valid 1 = true ∧ ¬ AnswersRight ⟨twoHandles, []⟩ (.valid 1) ∧
    ¬ Sound (Mealy.final Session.call ⟨twoHandles, []⟩ [.release 1]) := by
  refine ⟨rfl, by decide, ?_, ?_⟩
  · intro hright
    have hiff := hright 1 rfl
    exact absurd (hiff.mp (by decide)) (by decide)
  · intro hsound
    exact absurd hsound.free_le (by decide)

end HandlePool

end Memkit
