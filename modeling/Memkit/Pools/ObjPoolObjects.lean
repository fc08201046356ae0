import Memkit.Foundations.ObjectLedger
import Memkit.Pools.ObjPoolSound

/-! # The objects of an object pool

`alloc` hands out raw storage, in which the caller constructs an object; `alloc_copy` constructs one
itself. `free`, `clear` and the destructor of `ObjPool`, which calls `clear`, end the object of a slot
if the type has a destructor, without knowing whether there is one.

* **`PoolObjects`** — a session of the pool with the ledger of the objects at its addresses.
* **`settles_iff_careful`** — every object is destroyed exactly once, and nothing else is, exactly if
  no slot is given back raw and no copy of `alloc_copy` fails: a slot whose copy failed goes back
  through `free`, which destroys what was not constructed. -/

namespace Memkit

open ObjPool PoolSession

variable {w : ℕ} {V : Type*}

/-- A session with its objects. -/
structure PoolObjects (w : ℕ) (V : Type*) where
  session : PoolSession w V
  ledger : Ledger (BitVec w)

namespace PoolObjects

/-- A call of the pool, or a construction by the caller. -/
inductive Request (w : ℕ) (V : Type*)
  | of (call : PoolSession.Call w V)
  /-- A placement `new` at an address that `alloc` gave, and whether the constructor returns. -/
  | build (elem : BitVec w) (success : Bool)
  deriving DecidableEq, Repr

/-- Calls of `policy_.destroy`, which are made if the type has a destructor. -/
def ends (cfg : ObjPoolConfig w V) (elems : List (BitVec w)) : List (Ledger.Event (BitVec w)) :=
  if cfg.needsDestroy then elems.map .destroy else []

/-- What a call of the pool does to the objects. -/
def events (cfg : ObjPoolConfig w V) (s : PoolSession w V) :
    PoolSession.Call w V → List (Ledger.Event (BitVec w))
  | .alloc _ => []
  | .allocCopy src =>
    match s.pool.alloc cfg true with
    | ((.ok, some elem), p) =>
      if (copyTo cfg p elem src).1 = .ok then [.construct elem true]
      else .construct elem false :: ends cfg [elem]
    | _ => []
  | .free elem => if (s.pool.free cfg elem).1 = .ok then ends cfg [elem] else []
  | .clear =>
    if s.pool.usedCount = 0 then [] else ends cfg ((s.pool.forEach cfg).map Prod.fst)
  | .forEach => []

/-- One request. -/
def step (cfg : ObjPoolConfig w V) (s : PoolObjects w V) :
    Request w V → Option (PoolSession.Reply w) × PoolObjects w V
  | .of call =>
    let (reply, session) := PoolSession.step cfg s.session call
    (some reply, ⟨session, s.ledger.replay (events cfg s.session call)⟩)
  | .build elem success => (none, { s with ledger := s.ledger.construct elem success })

/-- The pool after `init`, without objects. -/
def start (cfg : ObjPoolConfig w V) (freeStack : ℕ → BitVec 32) (usedBits : ℕ → BitVec 8)
    (elems : ℕ → V) : PoolObjects w V :=
  ⟨PoolSession.start cfg freeStack usedBits elems, .empty _⟩

/-- A caller constructs objects only in slots that it was given and that have none. -/
def Builds (s : PoolObjects w V) : Request w V → Prop
  | .build elem _ => elem ∈ s.session.live ∧ s.ledger.live elem = false
  | .of _ => True

/-- The copy of an `alloc_copy` fails. -/
def copyFails (cfg : ObjPoolConfig w V) (s : PoolSession w V) (src : V) : Bool :=
  match s.pool.alloc cfg true with
  | ((.ok, some elem), p) => (copyTo cfg p elem src).1 != .ok
  | _ => false

/-- A slot that is given back has an object, and no copy fails. -/
def Careful (cfg : ObjPoolConfig w V) (s : PoolObjects w V) : Request w V → Prop
  | .of (.allocCopy src) => copyFails cfg s.session src = false
  | .of (.free elem) => elem ∈ s.session.live → s.ledger.live elem = true
  | .of .clear => ∀ elem ∈ s.session.live, s.ledger.live elem = true
  | _ => True

instance (s : PoolObjects w V) : DecidablePred (Builds s)
  | .build _ _ => inferInstanceAs (Decidable (_ ∈ _ ∧ _))
  | .of _ => inferInstanceAs (Decidable True)

instance (cfg : ObjPoolConfig w V) (s : PoolObjects w V) : DecidablePred (Careful cfg s)
  | .of (.alloc _) => inferInstanceAs (Decidable True)
  | .of (.allocCopy _) => inferInstanceAs (Decidable (_ = false))
  | .of (.free _) => inferInstanceAs (Decidable (_ → _))
  | .of .clear => List.decidableBAll (fun elem => s.ledger.live elem = true) s.session.live
  | .of .forEach => inferInstanceAs (Decidable True)
  | .build _ _ => inferInstanceAs (Decidable True)

/-- The objects lie in slots that are in use. -/
structure Inv (cfg : ObjPoolConfig w V) (s : PoolObjects w V) : Prop where
  sound : Sound cfg s.session
  no_fault : s.ledger.fault = false
  live_mem : ∀ elem, s.ledger.live elem = true → elem ∈ s.session.live

variable {cfg : ObjPoolConfig w V} {s : PoolObjects w V} {elem : BitVec w}

/-- The objects as a set of addresses. -/
theorem Inv.holds (h : Inv cfg s) : s.ledger.Holds {elem | s.ledger.live elem = true} :=
  ⟨h.no_fault, fun _ => Iff.rfl⟩

theorem inv_start (cfg : ObjPoolConfig w V) (freeStack : ℕ → BitVec 32) (usedBits : ℕ → BitVec 8)
    (elems : ℕ → V) : Inv cfg (start cfg freeStack usedBits elems) where
  sound := sound_start cfg freeStack usedBits elems
  no_fault := rfl
  live_mem elem h := by simp [start, Ledger.live, Ledger.empty, LedgerEntries.empty] at h

/-- A ledger whose objects are those of a set. -/
theorem Inv.of_holds {session : PoolSession w V} {ledger : Ledger (BitVec w)} {slots : Set (BitVec w)}
    (hsound : Sound cfg session) (hholds : ledger.Holds slots)
    (hmem : ∀ elem ∈ slots, elem ∈ session.live) : Inv cfg ⟨session, ledger⟩ where
  sound := hsound
  no_fault := hholds.no_fault
  live_mem elem hlive := hmem elem ((hholds.live_iff elem).mp hlive)

/-! ## What the calls do to the objects -/

/-- The objects that `clear` ends are those of the slots in use. -/
theorem Inv.events_clear (h : Inv cfg s) (hdestroy : cfg.needsDestroy = true) :
    ∃ elems : List (BitVec w), events cfg s.session .clear = elems.map .destroy ∧
      elems.Perm s.session.live := by
  by_cases hempty : s.session.pool.usedCount = 0
  · have hused := h.sound.used
    rw [hempty, show (0 : BitVec w).toNat = 0 from BitVec.toNat_zero] at hused
    have hnil : s.session.live = [] := List.length_eq_zero_iff.mp hused.symm
    exact ⟨[], if_pos hempty, hnil ▸ List.Perm.refl _⟩
  · have hevents : events cfg s.session .clear =
        ends cfg ((s.session.pool.forEach cfg).map Prod.fst) := if_neg hempty
    rw [hevents, ends, if_pos hdestroy]
    exact ⟨_, rfl, forEach_perm h.sound.booked⟩

/-- `free` ends the object of a slot in use, and does nothing at another address. -/
theorem Inv.free_cases (h : Inv cfg s) (hdestroy : cfg.needsDestroy = true) (elem : BitVec w) :
    (elem ∈ s.session.live ∧ events cfg s.session (.free elem) = [.destroy elem] ∧
        (PoolSession.step cfg s.session (.free elem)).2.live = s.session.live.erase elem) ∨
      elem ∉ s.session.live ∧ events cfg s.session (.free elem) = [] ∧
        (PoolSession.step cfg s.session (.free elem)).2.live = s.session.live := by
  by_cases hmem : elem ∈ s.session.live
  · obtain ⟨i, hi, hbit, rfl⟩ := (h.sound.booked.mem_live elem).mp hmem
    obtain ⟨elems, hfree⟩ := free_elemAt hi hbit
    refine .inl ⟨hmem, ?_, ?_⟩
    · simp only [events, hfree, ends, hdestroy, if_true]
      rfl
    · simp only [PoolSession.step, hfree, if_true]
  · obtain ⟨st, hst, hfree⟩ := free_of_not_mem h.sound.booked hmem
    refine .inr ⟨hmem, ?_, ?_⟩
    · simp only [events, hfree, if_neg hst]
    · simp only [PoolSession.step, hfree, if_neg hst]

/-- What `alloc_copy` constructs: nothing without a free slot; if the copy fails the raw slot is
destroyed. -/
theorem Inv.events_allocCopy (h : Inv cfg s) (hdestroy : cfg.needsDestroy = true) (src : V) :
    (events cfg s.session (.allocCopy src) = [] ∧ copyFails cfg s.session src = false ∧
        (PoolSession.step cfg s.session (.allocCopy src)).2.live = s.session.live) ∨
      ∃ elem ∉ s.session.live,
        if copyFails cfg s.session src then
          events cfg s.session (.allocCopy src) = [.construct elem false, .destroy elem]
        else
          events cfg s.session (.allocCopy src) = [.construct elem true] ∧
            (PoolSession.step cfg s.session (.allocCopy src)).2.live = elem :: s.session.live := by
  rcases alloc_cases h.sound.booked with ⟨hempty, halloc⟩ | ⟨n, i, hn, hi, hlt, halloc⟩
  · refine .inl ⟨?_, ?_, ?_⟩
    · simp only [events, halloc]
    · simp only [copyFails, halloc]
    · simp only [PoolSession.step, ObjPool.allocCopy, halloc]
      rfl
  · obtain ⟨-, hnot, -⟩ := h.sound.take hn hi
    refine .inr ⟨elemAt cfg i, hnot, ?_⟩
    simp only [copyFails, events, halloc, bne_iff_ne, ne_eq]
    by_cases hcopy : (copyTo cfg (s.session.pool.taken i) (elemAt cfg i) src).1 = .ok
    · rw [if_neg (not_not.mpr hcopy), if_pos hcopy]
      refine ⟨rfl, ?_⟩
      simp only [PoolSession.step, ObjPool.allocCopy, halloc, hcopy, ne_eq, not_true_eq_false,
        if_false]
      rfl
    · rw [if_pos hcopy, if_neg hcopy, ends, if_pos hdestroy]
      rfl

/-! ## One request -/

theorem live_alloc (cfg : ObjPoolConfig w V) (s : PoolSession w V) (out : Bool) :
    (PoolSession.step cfg s (.alloc out)).2.live = (s.pool.alloc cfg out).1.2.toList ++ s.live := rfl

/-- A call of the pool whose events leave objects in slots in use. -/
theorem Inv.call (h : Inv cfg s) {call : PoolSession.Call w V} {slots : Set (BitVec w)}
    {done : List (Ledger.Event (BitVec w))} (hevents : events cfg s.session call = done)
    (hholds : (s.ledger.replay done).Holds slots)
    (hmem : ∀ elem ∈ slots, elem ∈ (PoolSession.step cfg s.session call).2.live) :
    Inv cfg (step cfg s (.of call)).2 :=
  .of_holds (h.sound.step call).1 (hevents ▸ hholds) hmem

/-- **A careful request** keeps the objects in slots in use. -/
theorem Inv.step (h : Inv cfg s) (hdestroy : cfg.needsDestroy = true) {c : Request w V}
    (hbuilds : Builds s c) (hcareful : Careful cfg s c) : Inv cfg (step cfg s c).2 := by
  cases c with
  | build elem success =>
    obtain ⟨hmem, hnone⟩ := hbuilds
    have hfree : elem ∉ {elem | s.ledger.live elem = true} := by
      rw [Set.mem_ofPred_eq, hnone]
      exact Bool.false_ne_true
    cases success with
    | false => exact .of_holds h.sound (h.holds.construct_fail hfree) h.live_mem
    | true =>
      refine .of_holds h.sound (h.holds.construct hfree) fun e he => ?_
      rcases he with rfl | he
      · exact hmem
      · exact h.live_mem e he
  | of call =>
    cases call with
    | alloc out =>
      refine h.call rfl h.holds fun e he => ?_
      rw [live_alloc]
      exact List.mem_append_right _ (h.live_mem e he)
    | allocCopy src =>
      have hcopy : copyFails cfg s.session src = false := hcareful
      rcases h.events_allocCopy hdestroy src with ⟨hevents, -, hlive⟩ | ⟨elem, hnot, hcases⟩
      · refine h.call hevents h.holds fun e he => ?_
        rw [hlive]
        exact h.live_mem e he
      · rw [hcopy, if_neg Bool.false_ne_true] at hcases
        obtain ⟨hevents, hlive⟩ := hcases
        have hfree : elem ∉ {elem | s.ledger.live elem = true} := fun he =>
          hnot (h.live_mem elem he)
        refine h.call hevents (h.holds.construct hfree) fun e he => ?_
        rw [hlive]
        rcases he with rfl | he
        · exact List.mem_cons_self
        · exact List.mem_cons_of_mem _ (h.live_mem e he)
    | free elem =>
      rcases h.free_cases hdestroy elem with ⟨hmem, hevents, hlive⟩ | ⟨-, hevents, hlive⟩
      · have hobject : elem ∈ {elem | s.ledger.live elem = true} := hcareful hmem
        refine h.call hevents (h.holds.destroy hobject) fun e he => ?_
        rw [hlive]
        exact (List.mem_erase_of_ne he.2).mpr (h.live_mem e he.1)
      · refine h.call hevents h.holds fun e he => ?_
        rw [hlive]
        exact h.live_mem e he
    | clear =>
      obtain ⟨elems, hevents, hperm⟩ := h.events_clear hdestroy
      have hall : ∀ e ∈ elems, e ∈ {elem | s.ledger.live elem = true} := fun e he =>
        hcareful e (hperm.mem_iff.mp he)
      have hnodup : elems.Nodup := hperm.nodup_iff.mpr h.sound.booked.live_nodup
      have hholds := h.holds.destroyAll hnodup hall
      rw [← Ledger.replay_map_destroy] at hholds
      refine h.call hevents hholds fun e he => ?_
      -- every object was in a slot in use
      exact absurd (hperm.mem_iff.mpr (h.live_mem e he.1)) he.2
    | forEach => exact h.call rfl h.holds h.live_mem

/-- **A careless request** is a fault. -/
theorem Inv.fault_of_careless (h : Inv cfg s) (hdestroy : cfg.needsDestroy = true)
    {c : Request w V} (hcareless : ¬ Careful cfg s c) :
    (PoolObjects.step cfg s c).2.ledger.fault = true := by
  cases c with
  | build elem success => exact absurd trivial hcareless
  | of call =>
    show (s.ledger.replay (events cfg s.session call)).fault = true
    cases call with
    | alloc out => exact absurd trivial hcareless
    | allocCopy src =>
      have hcopy : copyFails cfg s.session src = true := Bool.eq_true_of_not_eq_false hcareless
      rcases h.events_allocCopy hdestroy src with ⟨-, hfalse, -⟩ | ⟨elem, hnot, hcases⟩
      · rw [hfalse] at hcopy
        cases hcopy
      · -- the slot is destroyed though nothing was constructed in it
        rw [if_pos hcopy] at hcases
        have hfree : elem ∉ {elem | s.ledger.live elem = true} := fun he =>
          hnot (h.live_mem elem he)
        rw [hcases]
        exact (h.holds.construct_fail hfree).destroy_fault hfree
    | free elem =>
      obtain ⟨hmem, hnone⟩ := Classical.not_imp.mp hcareless
      rcases h.free_cases hdestroy elem with ⟨-, hevents, -⟩ | ⟨hnot, -, -⟩
      · rw [hevents]
        exact h.holds.destroy_fault hnone
      · exact absurd hmem hnot
    | clear =>
      obtain ⟨elems, hevents, hperm⟩ := h.events_clear hdestroy
      obtain ⟨elem, hnone⟩ := Classical.not_forall.mp hcareless
      obtain ⟨hmem, hnone⟩ := Classical.not_imp.mp hnone
      rw [hevents, Ledger.replay_map_destroy]
      exact h.holds.fault_of_destroyAll (hperm.mem_iff.mpr hmem) hnone
    | forEach => exact absurd trivial hcareless

/-- A fault stays. -/
theorem step_fault (h : s.ledger.fault = true) (c : Request w V) :
    (step cfg s c).2.ledger.fault = true := by
  cases c with
  | of call => exact Ledger.replay_fault h _
  | build elem success => exact Ledger.construct_fault h elem success

/-! ## Whole runs -/

/-- Requests are careful exactly if no object is constructed over and nothing else is destroyed. -/
theorem careful_iff (hdestroy : cfg.needsDestroy = true) (hs : Inv cfg s)
    {requests : List (Request w V)} (hbuilds : Mealy.EveryCall (step cfg) Builds s requests) :
    Mealy.EveryCall (step cfg) (Careful cfg) s requests ↔
      (Mealy.final (step cfg) s requests).ledger.fault = false := by
  refine Mealy.everyCall_iff_final_of_side (Inv cfg) (fun s => s.ledger.fault = true)
    (fun s => s.ledger.fault = false) ?_ ?_ ?_ ?_ ?_ hs hbuilds
  · exact fun s c hinv hb hc => hinv.step hdestroy hb hc
  · exact fun s c hinv _ hc => hinv.fault_of_careless hdestroy hc
  · exact fun s c hfault => step_fault hfault c
  · exact fun s hinv => hinv.no_fault
  · intro s hfault hfine
    rw [hfault] at hfine
    cases hfine

/-- Careful requests and then a careful `clear` leave no objects. -/
theorem Inv.settled_clear (h : Inv cfg s) (hdestroy : cfg.needsDestroy = true)
    (hcareful : Careful cfg s (.of .clear)) :
    (PoolObjects.step cfg s (.of .clear)).2.ledger.Settled := by
  have hbuilds : Builds s (.of .clear) := trivial
  have hclear := h.step hdestroy hbuilds hcareful
  have hempty : {elem | (PoolObjects.step cfg s (.of .clear)).2.ledger.live elem = true} = ∅ :=
    Set.eq_empty_of_forall_notMem fun e he =>
      absurd (hclear.live_mem e he) List.not_mem_nil
  exact Ledger.Holds.settled (hempty ▸ hclear.holds)

/-- **The objects of a pool are settled exactly if its callers are careful**: for a type with a
destructor, any copies, any words passed to `free` and callers that construct only in raw slots of
their own, the objects are in order after the requests and the destructor of the pool then ends them
all, each once, if and only if no copy of `alloc_copy` failed and every slot that was given back, at
the end by the destructor, had an object. -/
theorem settles_iff_careful (cfg : ObjPoolConfig w V) (hdestroy : cfg.needsDestroy = true)
    (freeStack : ℕ → BitVec 32) (usedBits : ℕ → BitVec 8) (elems : ℕ → V)
    (requests : List (Request w V))
    (hbuilds : Mealy.EveryCall (step cfg) Builds (start cfg freeStack usedBits elems) requests) :
    Settles (step cfg) PoolObjects.ledger (.of .clear) (start cfg freeStack usedBits elems)
        requests ↔
      Mealy.EveryCall (step cfg) (Careful cfg) (start cfg freeStack usedBits elems)
        (requests ++ [.of .clear]) := by
  have hstart := inv_start cfg freeStack usedBits elems
  have hiff := careful_iff hdestroy hstart hbuilds
  rw [Mealy.everyCall_concat]
  constructor
  · rintro ⟨hfault, hsettled⟩
    have hall : Mealy.EveryCall (step cfg) Builds (start cfg freeStack usedBits elems)
        (requests ++ [.of .clear]) := Mealy.everyCall_concat.mpr ⟨hbuilds, trivial⟩
    have hend := (careful_iff hdestroy hstart hall).mpr (by
      rw [Mealy.final_concat]
      exact hsettled.no_fault)
    exact Mealy.everyCall_concat.mp hend
  · rintro ⟨hcareful, hclear⟩
    have hinv := (hbuilds.and hcareful).final_invariant (Inv cfg)
      (fun s c hinv hc => hinv.step hdestroy hc.1 hc.2) hstart
    exact ⟨hiff.mp hcareful, hinv.settled_clear hdestroy hclear⟩

/-- The pool of three slots for a type with a destructor. -/
def tripleObjects : ObjPoolConfig 16 ℕ := { triplePool with needsDestroy := true }

/-- An object built by the caller and a copy are settled; a raw slot that is freed is not. -/
theorem settles_iff_careful_triple :
    Settles (step tripleObjects) PoolObjects.ledger (.of .clear)
        (start tripleObjects (fun _ => 0) (fun _ => 255) id)
        [.of (.alloc true), .build 16 true, .of (.allocCopy 7), .of (.free 18), .of (.free 22)] ∧
      ¬ Settles (step tripleObjects) PoolObjects.ledger (.of .clear)
        (start tripleObjects (fun _ => 0) (fun _ => 255) id) [.of (.alloc true), .of (.free 16)] := by
  constructor
  · exact (settles_iff_careful tripleObjects rfl _ _ _ _ (by decide +kernel)).mpr (by decide +kernel)
  · intro h
    have hcareful := (settles_iff_careful tripleObjects rfl _ _ _ _ (by decide +kernel)).mp h
    exact absurd hcareful (by decide +kernel)

end PoolObjects

end Memkit
