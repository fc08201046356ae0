import Memkit.Pools.HandlePoolLiveness

/-! # The handle pool and its honest clients

A client is **honest** when it only passes handles that some `acquire` gave out, however stale. The
forged handles of a fresh pool are out of its reach, and so are the pending ones of a released slot
as long as the sixteen-bit generation of the slot has not come round, which takes 65535 releases.

* **`History`** — a session with every handle it gave out and every slot it took back.
* **`Stamped`** — the invariant: a slot's generation is an upper bound of the generations given out
  for it, reached by the handle held only, and one more than its releases at most. -/

namespace Memkit

namespace HandlePool

variable {w : ℕ} {p : HandlePool w} {h : Handle}

/-- A session with the handles given out, newest first, and the slots of the releases it accepted. -/
structure History (w : ℕ) where
  session : Session w
  issued : List Handle
  released : List ℕ

namespace History

/-- The handle that a call gives out. -/
def issuedBy : Call → Reply w → List Handle
  | .acquire _, .acquire .ok _ handle => [handle]
  | _, _ => []

/-- The slot that a call takes back. -/
def releasedBy : Call → Reply w → List ℕ
  | .release handle, .release .ok => [slotOf handle]
  | _, _ => []

/-- One call, with what it gives out and takes back on record. -/
def call (s : History w) (c : Call) : Reply w × History w :=
  ((s.session.call c).1,
    ⟨(s.session.call c).2, issuedBy c (s.session.call c).1 ++ s.issued,
      releasedBy c (s.session.call c).1 ++ s.released⟩)

/-- A fresh pool that has given out nothing. -/
def start (p : HandlePool w) : History w := ⟨⟨p, []⟩, [], []⟩

end History

/-- The handle that a call passes in. -/
def Call.handle? : Call → Option Handle
  | .acquire _ => none
  | .release handle => some handle
  | .get handle _ => some handle
  | .valid handle => some handle

/-- The call passes in a handle that was given out before. -/
def Honest (s : History w) (c : Call) : Prop := ∀ handle ∈ c.handle?, handle ∈ s.issued

instance (s : History w) (c : Call) : Decidable (Honest s c) :=
  match hc : c.handle? with
  | none => isTrue (by simp [Honest, hc])
  | some handle => decidable_of_iff (handle ∈ s.issued) (by simp [Honest, hc])

/-- No slot was taken back so often that its generation came round. -/
def Unworn (s : History w) : Prop := ∀ slot, s.released.count slot < 65535

/-- What an honest client may count on. -/
structure Serves (s : History w) : Prop where
  /-- Slots on the free stack and slots of held handles are all slots, once each. -/
  slots : (freeSlots s.session.pool ++ s.session.live.map slotOf).Perm
    (List.range s.session.pool.capacity.toNat)
  /-- `acquire` refuses exactly when as many handles are held as there are slots. -/
  acquire_full : (s.session.pool.acquire true).1 = .acquire .full none invalidHandle ↔
    s.session.live.length = s.session.pool.capacity.toNat
  /-- Otherwise it gives out a handle never given out before, for a slot that no held handle
  names. -/
  acquire_ok : s.session.live.length ≠ s.session.pool.capacity.toNat →
    ∃ handle, (s.session.pool.acquire true).1 =
        .acquire .ok (some (s.session.pool.slotPtr ((handleIndex handle).setWidth 32))) handle ∧
      handle ∉ s.issued ∧ ∀ held ∈ s.session.live, slotOf held ≠ slotOf handle
  release_live : ∀ h ∈ s.session.live, (s.session.pool.release h).1 = .release .ok
  get_live : ∀ h ∈ s.session.live, s.session.pool.get h true =
    .get .ok (some (s.session.pool.slotPtr ((handleIndex h).setWidth 32)))
  release_stale : ∀ h ∈ s.issued, h ∉ s.session.live →
    s.session.call (.release h) = (.release .invalid, s.session)
  get_stale : ∀ h ∈ s.issued, h ∉ s.session.live → ∀ hasOut,
    (s.session.call (.get h hasOut)).1.accepts = false ∧
      (s.session.call (.get h hasOut)).2 = s.session
  valid_iff : ∀ h ∈ s.issued, s.session.pool.valid h = true ↔ h ∈ s.session.live

/-- The invariant that ties generations to the handles given out and the slots taken back. -/
structure Stamped (s : History w) : Prop where
  inv : PoolInv s.session
  live_issued : ∀ h ∈ s.session.live, h ∈ s.issued
  stamp_ne : ∀ h ∈ s.issued, handleGeneration h ≠ 0
  stamp_le : ∀ h ∈ s.issued,
    (handleGeneration h).toNat ≤ (s.session.pool.generations (slotOf h)).toNat
  stamp_eq : ∀ h ∈ s.issued, s.session.pool.generations (slotOf h) = handleGeneration h →
    h ∈ s.session.live
  worn : ∀ slot < s.session.pool.capacity.toNat,
    (s.session.pool.generations slot).toNat ≤ s.released.count slot + 1

/-! ## What the invariant gives -/

namespace Stamped

variable {s : History w}

/-- A handle that was given out is held or stale, never pending. -/
theorem not_pending (hst : Stamped s) (hissued : h ∈ s.issued) : ¬ Pending s.session.pool h := by
  rintro ⟨-, hfree, hgen⟩
  exact hst.inv.not_free_of_live (hst.stamp_eq h hissued hgen) hfree

theorem valid_iff (hst : Stamped s) (hissued : h ∈ s.issued) :
    s.session.pool.valid h = true ↔ h ∈ s.session.live :=
  hst.inv.valid_right_iff.mpr (hst.not_pending hissued)

/-- The free stack is empty exactly when every slot is held. -/
theorem freeCount_eq_zero (hst : Stamped s) :
    s.session.pool.freeCount = 0 ↔ s.session.live.length = s.session.pool.capacity.toNat := by
  have hsum := hst.inv.free_add_live
  constructor
  · intro hzero
    rw [hzero] at hsum
    simpa using hsum
  · intro hfull
    apply BitVec.eq_of_toNat_eq
    simp only [BitVec.ofNat_eq_ofNat, BitVec.toNat_ofNat, Nat.zero_mod]
    omega

/-- The handle that `acquire` is about to give out is new, and its slot is free. -/
theorem fresh (hst : Stamped s) {index : BitVec 16} {generation : BitVec 16}
    (hfree : index.toNat ∈ freeSlots s.session.pool)
    (hgen : generation = if s.session.pool.generations index.toNat = 0 then 1
      else s.session.pool.generations index.toNat) :
    makeHandle index generation ∉ s.issued ∧
      ∀ held ∈ s.session.live, slotOf held ≠ index.toNat := by
  have hslot := slotOf_makeHandle index generation
  constructor
  · intro hissued
    have hle := hst.stamp_le _ hissued
    have hne := hst.stamp_ne _ hissued
    rw [hslot, handleGeneration_makeHandle] at hle
    rw [handleGeneration_makeHandle] at hne
    by_cases hzero : s.session.pool.generations index.toNat = 0
    · -- a slot with generation zero never gave out a handle
      rw [hzero] at hle
      exact hne (BitVec.eq_of_toNat_eq (by simpa using hle))
    · -- the handle would be held already, but its slot is free
      rw [if_neg hzero] at hgen
      have hlive := hst.stamp_eq _ hissued (by
        rw [hslot, handleGeneration_makeHandle, hgen])
      exact hst.inv.not_free_of_live hlive (hslot ▸ hfree)
  · intro held hheld hsame
    exact hst.inv.not_free_of_live hheld (hsame ▸ hfree)

/-- The invariant gives all an honest client counts on. -/
theorem serves (hst : Stamped s) : Serves s where
  slots := hst.inv.slots
  acquire_full := by
    rw [← hst.freeCount_eq_zero]
    constructor
    · intro hfull
      -- a pool with a free slot never answers full
      by_contra hfree
      obtain ⟨_, _, hacquire, -⟩ := hst.inv.acquire_spec hfree
      rw [hacquire] at hfull
      cases hfull
    · intro hzero
      simp [acquire, hzero]
  acquire_ok := by
    intro hroom
    obtain ⟨index, gens, hacquire, htop, -, hgen⟩ :=
      hst.inv.acquire_spec (fun hzero => hroom (hst.freeCount_eq_zero.mp hzero))
    -- the slot on top of the free stack is free, so that no live handle has it
    have hfree : index.toNat ∈ freeSlots s.session.pool := by
      rw [htop]
      simp
    obtain ⟨hnew, happart⟩ := hst.fresh hfree hgen
    refine ⟨_, by rw [hacquire, handleIndex_makeHandle], hnew, ?_⟩
    intro held hheld
    rw [slotOf, slotOf, handleIndex_makeHandle]
    exact happart held hheld
  release_live := by
    intro h hlive
    -- `valid` tells the live handles among the issued ones
    have hvalid := (hst.valid_iff (hst.live_issued h hlive)).mpr hlive
    obtain ⟨_, hrelease, -⟩ := release_of_valid hvalid
    rw [hrelease]
  get_live := by
    intro h hlive
    have hvalid := (hst.valid_iff (hst.live_issued h hlive)).mpr hlive
    obtain ⟨h0, -, -⟩ := HandlePool.valid_iff.mp hvalid
    have hmatch : s.session.pool.stampMatches h = true := by simpa [valid, h0] using hvalid
    simp [get, h0, hmatch]
  release_stale := by
    intro h hissued hstale
    have hvalid : s.session.pool.valid h = false := by
      simpa using mt (hst.valid_iff hissued).mp hstale
    simp only [Session.call, HandlePool.call, release_of_not_valid hvalid, track]
  get_stale := by
    intro h hissued hstale hasOut
    have hvalid : s.session.pool.valid h = false := by
      simpa using mt (hst.valid_iff hissued).mp hstale
    have hreply : (s.session.pool.get h hasOut).accepts = false := by
      cases hasOut with
      | false => rfl
      | true => rwa [get_accepts]
    refine ⟨hreply, ?_⟩
    simp only [Session.call, HandlePool.call]
    unfold track
    split <;> simp_all
  valid_iff := fun h hissued => hst.valid_iff hissued

/-! ## One call -/

/-- A freshly initialised pool has given out nothing. -/
theorem start {hasStorage : Bool} {generations : ℕ → BitVec 16} {freeStack : ℕ → BitVec 32}
    {capacity elemSize : BitVec w}
    (hinit : init hasStorage generations freeStack capacity elemSize = .ok p) :
    Stamped (History.start p) where
  inv := poolInv_init hinit
  live_issued := List.forall_mem_nil _
  stamp_ne := List.forall_mem_nil _
  stamp_le := List.forall_mem_nil _
  stamp_eq := List.forall_mem_nil _
  worn := by
    intro slot hlt
    obtain ⟨-, -, -, -, -, hslots⟩ := init_spec hinit
    show (p.generations slot).toNat ≤ _
    rw [(hslots slot hlt).2]
    exact Nat.zero_le _

theorem keep_acquire (hst : Stamped s) (hasOuts : Bool) :
    Stamped (s.call (.acquire hasOuts)).2 := by
  have hinv := hst.inv.keep_acquire hasOuts
  by_cases hnull : hasOuts = false
  · simpa [History.call, Session.call, HandlePool.call, HandlePool.acquire, hnull, track,
      History.issuedBy, History.releasedBy] using hst
  by_cases hempty : s.session.pool.freeCount = 0
  · simpa [History.call, Session.call, HandlePool.call, HandlePool.acquire, hnull, hempty, track,
      History.issuedBy, History.releasedBy] using hst
  obtain rfl : hasOuts = true := by simpa using hnull
  obtain ⟨index, gens, hacquire, htop, hothers, hgen⟩ := hst.inv.acquire_spec hempty
  have hfree : index.toNat ∈ freeSlots s.session.pool := by
    rw [htop]
    simp
  have hslot := slotOf_makeHandle index (gens index.toNat)
  have hnz := generation_ne_zero hgen
  -- no handle given out before loses its bound, and none but the new one gains the generation
  have hgrow : ∀ slot, (s.session.pool.generations slot).toNat ≤ (gens slot).toNat := by
    intro slot
    by_cases hsame : slot = index.toNat
    · subst hsame
      rw [hgen]
      split
      · rename_i hzero
        simp [hzero]
      · exact le_rfl
    · rw [hothers slot hsame]
  obtain ⟨hnew, -⟩ := hst.fresh hfree hgen
  simp only [History.call, Session.call, HandlePool.call, hacquire, track] at hinv ⊢
  simp only [History.issuedBy, History.releasedBy, List.singleton_append, List.nil_append]
  refine ⟨hinv, ?_, ?_, ?_, ?_, ?_⟩
  · intro h hmem
    rcases List.mem_cons.mp hmem with rfl | hmem
    · exact List.mem_cons_self
    · exact List.mem_cons_of_mem _ (hst.live_issued h hmem)
  · intro h hmem
    rcases List.mem_cons.mp hmem with rfl | hmem
    · rwa [handleGeneration_makeHandle]
    · exact hst.stamp_ne h hmem
  · intro h hmem
    rcases List.mem_cons.mp hmem with rfl | hmem
    · show (handleGeneration _).toNat ≤ (gens (slotOf _)).toNat
      rw [hslot, handleGeneration_makeHandle]
    · exact (hst.stamp_le h hmem).trans (hgrow _)
  · intro h hmem hsame
    rcases List.mem_cons.mp hmem with rfl | hissued
    · exact List.mem_cons_self
    · apply List.mem_cons_of_mem
      by_cases hslot' : slotOf h = index.toNat
      · -- a handle of that slot with the generation given out is the new one
        have hindex : handleIndex h = handleIndex (makeHandle index (gens index.toNat)) :=
          BitVec.eq_of_toNat_eq (hslot'.trans hslot.symm)
        have hh : h = makeHandle index (gens index.toNat) := by
          apply handle_ext hindex
          rw [handleGeneration_makeHandle, ← hslot']
          exact hsame.symm
        exact absurd (hh ▸ hissued) hnew
      · apply hst.stamp_eq h hissued
        rw [← hothers _ hslot']
        exact hsame
  · intro slot hlt
    show (gens slot).toNat ≤ _
    have hworn := hst.worn slot hlt
    by_cases hsame : slot = index.toNat
    · subst hsame
      rw [hgen]
      split
      · exact Nat.le_add_left _ _
      · exact hworn
    · rwa [hothers slot hsame]

theorem keep_release (hst : Stamped s) (hissued : h ∈ s.issued)
    (hunworn : Unworn (s.call (.release h)).2) : Stamped (s.call (.release h)).2 := by
  have hinv := hst.inv.keep_release (hst.not_pending hissued)
  by_cases hlive : h ∈ s.session.live
  · have hvalid := (hst.valid_iff hissued).mpr hlive
    obtain ⟨-, hlt, hgen⟩ := HandlePool.valid_iff.mp hvalid
    obtain ⟨gens, hrelease, hothers, hbump⟩ := release_of_valid hvalid
    simp only [History.call, Session.call, HandlePool.call, hrelease, track] at hinv hunworn ⊢
    simp only [History.issuedBy, History.releasedBy, List.singleton_append, List.nil_append]
      at hunworn ⊢
    -- the generation does not come round: the slot was taken back too seldom for that
    have hnext : (gens (slotOf h)).toNat = (s.session.pool.generations (slotOf h)).toNat + 1 := by
      have hcount := hunworn (slotOf h)
      have hworn := hst.worn (slotOf h) hlt
      rw [List.count_cons_self] at hcount
      rw [if_neg] at hbump
      · rw [hbump]
        exact WrapCounter.toNat_succ (c := 0xFFFF) (by
          show _ < 65535
          omega)
      · intro hmax
        rw [hmax] at hworn
        have hval : (0xFFFF : BitVec 16).toNat = 65535 := rfl
        omega
    refine ⟨hinv, ?_, hst.stamp_ne, ?_, ?_, ?_⟩
    · intro h' hmem
      exact hst.live_issued h' (List.mem_of_mem_erase hmem)
    · intro h' hissued'
      show _ ≤ (gens (slotOf h')).toNat
      have hle := hst.stamp_le h' hissued'
      by_cases hsame : slotOf h' = slotOf h
      · rw [hsame] at hle ⊢
        omega
      · rwa [hothers _ hsame]
    · intro h' hissued' hgen'
      have hle := hst.stamp_le h' hissued'
      have hgens : gens (slotOf h') = handleGeneration h' := hgen'
      by_cases hsame : slotOf h' = slotOf h
      · -- the slot has left every generation given out for it behind
        rw [hsame] at hle hgens
        rw [hgens] at hnext
        omega
      · rw [hothers _ hsame] at hgens
        have hne : h' ≠ h := fun heq => hsame (congrArg slotOf heq)
        exact (List.mem_erase_of_ne hne).mpr (hst.stamp_eq h' hissued' hgens)
    · intro slot hslot
      show (gens slot).toNat ≤ _
      have hworn := hst.worn slot hslot
      by_cases hsame : slot = slotOf h
      · subst hsame
        rw [List.count_cons_self]
        omega
      · rw [hothers _ hsame, List.count_cons_of_ne (Ne.symm hsame)]
        exact hworn
  · have hvalid : s.session.pool.valid h = false := by
      simpa using mt (hst.valid_iff hissued).mp hlive
    simpa only [History.call, Session.call, HandlePool.call, release_of_not_valid hvalid, track,
      History.issuedBy, History.releasedBy, List.nil_append] using hst

/-- An honest call after which no generation has come round keeps the invariant. -/
theorem keep_call (hst : Stamped s) {c : Call} (hhonest : Honest s c)
    (hunworn : Unworn (s.call c).2) : Stamped (s.call c).2 := by
  cases c with
  | acquire hasOuts => exact hst.keep_acquire hasOuts
  | release handle => exact hst.keep_release (hhonest handle rfl) hunworn
  | get handle hasOut =>
    have hsame : track s.session.live (.get handle hasOut) (s.session.pool.get handle hasOut) =
        s.session.live := by
      unfold track
      split <;> simp_all
    simpa only [History.call, Session.call, HandlePool.call, hsame, History.issuedBy,
      History.releasedBy, List.nil_append] using hst
  | valid handle => exact hst

end Stamped

/-! ## Whole runs -/

/-- Slots taken back stay on record. -/
theorem Unworn.of_call {s : History w} {c : Call} (hunworn : Unworn (s.call c).2) : Unworn s := by
  intro slot
  have hcount := hunworn slot
  simp only [History.call, List.count_append] at hcount
  omega

/-- **The pool serves honest clients.** For every capacity that `init` accepts and every sequence of
calls that passes in only handles given out before, stale ones and ones released twice included,
and takes no slot back 65535 times: the slots are partitioned, `acquire` refuses exactly when the
pool is full and otherwise gives out a new handle for a slot nobody holds, and `release`, `get` and
`valid` accept a held handle and reject a stale one without a change. -/
theorem serves_honest_clients {hasStorage : Bool} {generations : ℕ → BitVec 16}
    {freeStack : ℕ → BitVec 32} {capacity elemSize : BitVec w}
    (hinit : init hasStorage generations freeStack capacity elemSize = .ok p) (calls : List Call)
    (hhonest : Mealy.EveryCall History.call Honest (History.start p) calls)
    (hunworn : Unworn (Mealy.final History.call (History.start p) calls)) :
    Serves (Mealy.final History.call (History.start p) calls) := by
  have hst := hhonest.final_invariant_of_final Stamped Unworn (fun _ _ hun => hun.of_call)
    (fun _ _ hst hc hun => hst.keep_call hc hun) (Stamped.start hinit) hunworn
  exact hst.serves

/-- Both slots of a pool are taken, one is released twice and taken again, and its stale handle is
asked about. -/
theorem serves_honest_clients_two :
    Serves (Mealy.final History.call (History.start twoHandles)
      [.acquire true, .acquire true, .release 0x10000, .release 0x10000, .acquire true,
        .get 0x10000 true]) := by
  have honce : (Mealy.final History.call (History.start twoHandles)
      [.acquire true, .acquire true, .release 0x10000, .release 0x10000, .acquire true,
        .get 0x10000 true]).released = [0] := by
    decide
  apply serves_honest_clients init_twoHandles
  · decide
  · intro slot
    rw [honce]
    have hle : List.count slot [0] ≤ 1 := List.count_le_length
    exact hle.trans_lt (by norm_num)

end HandlePool

end Memkit
