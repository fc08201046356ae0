import Memkit.Foundations.ObjectLedger
import Memkit.Pools.HandlePoolClients

/-! # The objects of a handle pool

`HandlePool<T>` of `containers/handle_pool.hpp` over the core: `emplace` constructs an object in the
slot it acquires, `release` ends the object and gives the slot back, and the destructor ends none. A
caller of `acquire` gets raw storage, in which it may construct an object itself.

* **`Objects`** — the pool, the ledger of its slots, and for every handle under which an object was
  constructed the number of that object.
* **`Denotes`** — a handle denotes its own object while this lives, and nothing afterwards.
* **`handles_denote_objects`** — so it is for clients that pass in handles given out before, and that
  release a slot only with an object in it. -/

namespace Memkit

namespace HandlePool

variable {w : ℕ} {p : HandlePool w} {h : Handle}

/-- The pool with its objects. -/
structure Objects (w : ℕ) where
  history : History w
  /-- Which object is in which slot. -/
  ledger : Ledger ℕ
  /-- The handles of the objects, with their numbers, newest first. -/
  names : List (Handle × ℕ)

namespace Objects

/-- A call of `HandlePool<T>`, or a construction by the caller. -/
inductive Request
  | acquire
  /-- `emplace`, with a constructor that returns or throws. -/
  | emplace (constructs : Bool)
  /-- `get`, and then a placement `new` by the caller if the pointer is given. -/
  | build (handle : Handle) (constructs : Bool)
  | release (handle : Handle)
  | get (handle : Handle)
  | valid (handle : Handle)
  deriving DecidableEq, Repr

/-- Construct an object in the slot of a handle. -/
def construct (s : Objects w) (handle : Handle) (constructs : Bool) : Objects w :=
  { s with
    ledger := s.ledger.construct (slotOf handle) constructs
    names := if constructs then (handle, s.ledger.entries.born) :: s.names else s.names }

/-- `emplace`; an exception of the constructor leaves the slot taken. -/
def emplace (s : Objects w) (constructs : Bool) : Reply w × Objects w :=
  let (reply, history) := s.history.call (.acquire true)
  match reply with
  | .acquire .ok _ handle => (reply, construct { s with history } handle constructs)
  | _ => (reply, { s with history })

/-- The caller constructs an object behind the pointer of `get`. -/
def build (s : Objects w) (handle : Handle) (constructs : Bool) : Reply w × Objects w :=
  match s.history.session.pool.get handle true with
  | .get .ok ptr => (.get .ok ptr, s.construct handle constructs)
  | reply => (reply, s)

/-- `release`: the pointer, the destructor, and the core. -/
def release (s : Objects w) (handle : Handle) : Reply w × Objects w :=
  match s.history.session.pool.get handle true with
  | .get .ok _ =>
    let (reply, history) := s.history.call (.release handle)
    (reply, { s with history, ledger := s.ledger.destroy (slotOf handle) })
  | .get st _ => (.release st, s)
  | reply => (reply, s)

/-- One request. -/
def step (s : Objects w) : Request → Reply w × Objects w
  | .acquire =>
    let (reply, history) := s.history.call (.acquire true)
    (reply, { s with history })
  | .emplace constructs => s.emplace constructs
  | .build handle constructs => s.build handle constructs
  | .release handle => s.release handle
  | .get handle => (s.history.session.pool.get handle true, s)
  | .valid handle => (.valid (s.history.session.pool.valid handle), s)

/-- A fresh pool without objects. -/
def start (p : HandlePool w) : Objects w := ⟨.start p, .empty ℕ, []⟩

/-- A client passes in handles given out before, releases a slot that is its own only with an object
in it, and constructs one only where there is none. -/
def Careful (s : Objects w) : Request → Prop
  | .release handle =>
    handle ∈ s.history.issued ∧
      (handle ∈ s.history.session.live → s.ledger.live (slotOf handle) = true)
  | .build handle _ =>
    handle ∈ s.history.issued ∧
      (handle ∈ s.history.session.live → s.ledger.live (slotOf handle) = false)
  | .get handle => handle ∈ s.history.issued
  | .valid handle => handle ∈ s.history.issued
  | _ => True

instance (s : Objects w) : DecidablePred (Careful s)
  | .acquire => inferInstanceAs (Decidable True)
  | .emplace _ => inferInstanceAs (Decidable True)
  | .build _ _ => inferInstanceAs (Decidable (_ ∧ (_ → _)))
  | .release _ => inferInstanceAs (Decidable (_ ∧ (_ → _)))
  | .get _ => inferInstanceAs (Decidable (_ ∈ _))
  | .valid _ => inferInstanceAs (Decidable (_ ∈ _))

/-- Handles and objects correspond. -/
structure Denotes (s : Objects w) : Prop where
  no_fault : s.ledger.fault = false
  /-- Every object has one handle. -/
  numbered : s.names.map Prod.snd = (List.range s.ledger.entries.born).reverse
  /-- No handle has had two objects. -/
  distinct : (s.names.map Prod.fst).Nodup
  /-- A valid handle gives the pointer to the slot that holds its object, which is alive. -/
  alive : ∀ n ∈ s.names, s.history.session.pool.valid n.1 = true →
    s.history.session.pool.get n.1 true =
        .get .ok (some (s.history.session.pool.slotPtr ((handleIndex n.1).setWidth 32))) ∧
      s.ledger.entries.held (slotOf n.1) = some n.2 ∧ s.ledger.entries.died n.2 = 0
  /-- The object of a handle that is not valid was destroyed, once. -/
  gone : ∀ n ∈ s.names, s.history.session.pool.valid n.1 = false → s.ledger.entries.died n.2 = 1
  /-- The destructor of the pool leaves nothing behind only if no object is alive. -/
  settled_iff : s.ledger.Settled ↔
    ∀ n ∈ s.names, s.history.session.pool.valid n.1 = false

/-! ## The invariant -/

/-- A slot holds the object whose handle is held. -/
structure Inv (s : Objects w) : Prop where
  stamped : Stamped s.history
  no_fault : s.ledger.fault = false
  held_iff : ∀ slot id, s.ledger.entries.held slot = some id ↔
    ∃ handle, (handle, id) ∈ s.names ∧ handle ∈ s.history.session.live ∧ slotOf handle = slot
  issued : ∀ n ∈ s.names, n.1 ∈ s.history.issued
  numbered : s.names.map Prod.snd = (List.range s.ledger.entries.born).reverse
  distinct : (s.names.map Prod.fst).Nodup

variable {s : Objects w} {history : History w} {names : List (Handle × ℕ)} {slot : ℕ}

theorem inv_start {hasStorage : Bool} {generations : ℕ → BitVec 16} {freeStack : ℕ → BitVec 32}
    {capacity elemSize : BitVec w}
    (hinit : init hasStorage generations freeStack capacity elemSize = .ok p) : Inv (start p) where
  stamped := Stamped.start hinit
  no_fault := rfl
  held_iff slot id := by
    simp [start, Ledger.empty, LedgerEntries.empty]
  issued := List.forall_mem_nil _
  numbered := rfl
  distinct := List.nodup_nil

/-- A call of the core after which the handles of the objects are held as before. -/
theorem Inv.frame (hinv : Inv s) (hst : Stamped history)
    (hlive : ∀ h ∈ s.history.issued, h ∈ history.session.live ↔ h ∈ s.history.session.live)
    (hissued : ∀ h ∈ s.history.issued, h ∈ history.issued) : Inv { s with history } where
  stamped := hst
  no_fault := hinv.no_fault
  held_iff slot id := by
    rw [hinv.held_iff]
    constructor
    · rintro ⟨handle, hname, hheld, hslot⟩
      exact ⟨handle, hname, (hlive handle (hinv.issued _ hname)).mpr hheld, hslot⟩
    · rintro ⟨handle, hname, hheld, hslot⟩
      exact ⟨handle, hname, (hlive handle (hinv.issued _ hname)).mp hheld, hslot⟩
  issued n hn := hissued _ (hinv.issued n hn)
  numbered := hinv.numbered
  distinct := hinv.distinct

/-- A slot without a held handle has no object. -/
theorem Inv.not_live (hinv : Inv s) (hslot : ∀ h ∈ s.history.session.live, slotOf h ≠ slot) :
    s.ledger.live slot = false := by
  rw [Ledger.live, Option.isSome_eq_false_iff, Option.isNone_iff_eq_none,
    Option.eq_none_iff_forall_ne_some]
  intro id hid
  obtain ⟨handle, -, hheld, hsame⟩ := (hinv.held_iff slot id).mp hid
  exact hslot handle hheld hsame

theorem construct_fault (s : Objects w) (handle : Handle) (constructs : Bool) :
    (s.construct handle constructs).ledger.fault =
      (s.ledger.fault || s.ledger.live (slotOf handle)) := rfl

/-- **Constructing** in the slot of a held handle that has no object. -/
theorem Inv.construct (hinv : Inv s) (hheld : h ∈ s.history.session.live)
    (hnone : s.ledger.live (slotOf h) = false) (constructs : Bool) :
    Inv (s.construct h constructs) := by
  have hfault : (s.construct h constructs).ledger.fault = false := by
    rw [construct_fault, hinv.no_fault, hnone]
    rfl
  cases constructs with
  | false => exact ⟨hinv.stamped, hfault, hinv.held_iff, hinv.issued, hinv.numbered, hinv.distinct⟩
  | true =>
    have hempty : s.ledger.entries.held (slotOf h) = none := by
      simpa [Ledger.live] using hnone
    refine ⟨hinv.stamped, hfault, fun slot id => ?_, ?_, ?_, ?_⟩
    · show Function.update s.ledger.entries.held (slotOf h) (some s.ledger.entries.born) slot =
          some id ↔ ∃ handle, (handle, id) ∈ (h, s.ledger.entries.born) :: s.names ∧
            handle ∈ s.history.session.live ∧ slotOf handle = slot
      by_cases hslot : slot = slotOf h
      · -- no other held handle names the slot
        subst hslot
        rw [Function.update_self, Option.some.injEq]
        constructor
        · rintro rfl
          exact ⟨h, List.mem_cons_self, hheld, rfl⟩
        · rintro ⟨handle, hname, hlive, hsame⟩
          rcases List.mem_cons.mp hname with heq | hname
          · exact (Prod.mk.inj heq).2.symm
          · have hold := (hinv.held_iff (slotOf h) id).mpr ⟨handle, hname, hlive, hsame⟩
            rw [hempty] at hold
            cases hold
      · rw [Function.update_of_ne hslot, hinv.held_iff]
        constructor
        · rintro ⟨handle, hname, hlive, hsame⟩
          exact ⟨handle, List.mem_cons_of_mem _ hname, hlive, hsame⟩
        · rintro ⟨handle, hname, hlive, hsame⟩
          rcases List.mem_cons.mp hname with heq | hname
          · rw [(Prod.mk.inj heq).1] at hsame
            exact absurd hsame.symm hslot
          · exact ⟨handle, hname, hlive, hsame⟩
    · rintro n hn
      rcases List.mem_cons.mp hn with rfl | hn
      · exact hinv.stamped.live_issued h hheld
      · exact hinv.issued n hn
    · show s.ledger.entries.born :: s.names.map Prod.snd =
        (List.range (s.ledger.entries.born + 1)).reverse
      rw [hinv.numbered, List.range_succ, List.reverse_append]
      rfl
    · show (h :: s.names.map Prod.fst).Nodup
      refine List.nodup_cons.mpr ⟨fun hmem => ?_, hinv.distinct⟩
      -- an object under this handle would be in the slot
      obtain ⟨⟨handle, id⟩, hname, rfl⟩ := List.mem_map.mp hmem
      have hold := (hinv.held_iff _ id).mpr ⟨handle, hname, hheld, rfl⟩
      rw [hempty] at hold
      cases hold

/-- **Destroying** the object of a held handle that is given up. -/
theorem Inv.destroy (hinv : Inv s) (hheld : h ∈ s.history.session.live)
    (hlive : s.ledger.live (slotOf h) = true) (hst : Stamped history)
    (hleft : history.session.live = s.history.session.live.erase h)
    (hissued : history.issued = s.history.issued) :
    Inv { s with history, ledger := s.ledger.destroy (slotOf h) } := by
  have hnodup : s.history.session.live.Nodup :=
    (List.nodup_append.mp hinv.stamped.inv.nodup).2.1.of_map
  obtain ⟨id₀, hid₀⟩ := Option.isSome_iff_exists.mp hlive
  have hentries : (s.ledger.destroy (slotOf h)).entries = s.ledger.entries.destroy (slotOf h) := rfl
  refine ⟨hst, ?_, fun slot id => ?_, ?_, ?_, hinv.distinct⟩
  · show (s.ledger.fault || !s.ledger.live (slotOf h)) = false
    rw [hinv.no_fault, hlive]
    rfl
  · rw [hentries, LedgerEntries.destroy_of_some hid₀, hleft]
    show Function.update s.ledger.entries.held (slotOf h) none slot = some id ↔ _
    by_cases hslot : slot = slotOf h
    · subst hslot
      rw [Function.update_self]
      constructor
      · rintro ⟨⟩
      · rintro ⟨handle, -, hother, hsame⟩
        -- the handle that is given up was the only one for the slot
        obtain ⟨hne, hother⟩ := (hnodup.mem_erase_iff).mp hother
        exact absurd (hinv.stamped.inv.live_inj hother hheld hsame) hne
    · rw [Function.update_of_ne hslot, hinv.held_iff]
      constructor
      · rintro ⟨handle, hname, hother, hsame⟩
        refine ⟨handle, hname, (hnodup.mem_erase_iff).mpr ⟨?_, hother⟩, hsame⟩
        rintro rfl
        exact hslot hsame.symm
      · rintro ⟨handle, hname, hother, hsame⟩
        exact ⟨handle, hname, List.mem_of_mem_erase hother, hsame⟩
  · rintro n hn
    rw [hissued]
    exact hinv.issued n hn
  · rw [hentries, LedgerEntries.destroy_of_some hid₀]
    exact hinv.numbered

/-! ## One request -/

/-- What `acquire` of the core does for honest clients. -/
theorem acquire_cases {s : History w} (hst : Stamped s) :
    (∃ ptr handle history, s.call (.acquire true) = (.acquire .ok ptr handle, history) ∧
        history.session.live = handle :: s.session.live ∧ history.issued = handle :: s.issued ∧
        handle ∉ s.issued ∧ ∀ held ∈ s.session.live, slotOf held ≠ slotOf handle) ∨
      ∃ history, s.call (.acquire true) = (.acquire .full none invalidHandle, history) ∧
        history.session.live = s.session.live ∧ history.issued = s.issued := by
  have hserves := hst.serves
  by_cases hfull : s.session.live.length = s.session.pool.capacity.toNat
  · have hreply := hserves.acquire_full.mpr hfull
    refine .inr ⟨(s.call (.acquire true)).2, Prod.ext hreply rfl, ?_, ?_⟩
    · show track s.session.live (.acquire true) (s.session.pool.acquire true).1 = _
      rw [hreply]
      rfl
    · show History.issuedBy (.acquire true) (s.session.pool.acquire true).1 ++ s.issued = _
      rw [hreply]
      rfl
  · obtain ⟨handle, hreply, hnew, hslots⟩ := hserves.acquire_ok hfull
    refine .inl ⟨_, handle, (s.call (.acquire true)).2, Prod.ext hreply rfl, ?_, ?_, hnew, hslots⟩
    · show track s.session.live (.acquire true) (s.session.pool.acquire true).1 = _
      rw [hreply]
      rfl
    · show History.issuedBy (.acquire true) (s.session.pool.acquire true).1 ++ s.issued = _
      rw [hreply]
      rfl

/-- `get` gives the pointer for a valid handle. -/
theorem get_of_valid (hvalid : p.valid h = true) :
    p.get h true = .get .ok (some (p.slotPtr ((handleIndex h).setWidth 32))) := by
  obtain ⟨h0, -, -⟩ := valid_iff.mp hvalid
  have hmatch : p.stampMatches h = true := by simpa [valid, h0] using hvalid
  simp [HandlePool.get, h0, hmatch]

theorem get_of_not_valid (hvalid : p.valid h = false) : p.get h true = .get .invalid none := by
  by_cases h0 : h = invalidHandle
  · simp [HandlePool.get, h0]
  · have hmatch : p.stampMatches h = false := by simpa [valid, h0] using hvalid
    simp [HandlePool.get, h0, hmatch]

/-- A released handle is not held any more. -/
theorem release_live {s : History w} (hst : Stamped s) (hheld : h ∈ s.session.live) :
    (s.call (.release h)).2.session.live = s.session.live.erase h ∧
      (s.call (.release h)).2.issued = s.issued := by
  have hreply := hst.serves.release_live h hheld
  constructor
  · show track s.session.live (.release h) (s.session.pool.release h).1 = _
    rw [hreply]
    rfl
  · rfl

/-- `acquire` of the core does not touch the objects. -/
theorem Inv.acquire (hinv : Inv s) : Inv { s with history := (s.history.call (.acquire true)).2 } := by
  have hst := hinv.stamped.keep_acquire true
  rcases acquire_cases hinv.stamped with
    ⟨ptr, handle, history, hcall, hlive, hissued, hnew, -⟩ | ⟨history, hcall, hlive, hissued⟩
  · rw [hcall] at hst ⊢
    refine hinv.frame hst (fun h hold => ?_) fun h hold => ?_
    · rw [hlive, List.mem_cons]
      exact or_iff_right fun heq => hnew (heq ▸ hold)
    · rw [hissued]
      exact List.mem_cons_of_mem _ hold
  · rw [hcall] at hst ⊢
    exact hinv.frame hst (fun h _ => by rw [hlive]) fun h hold => hissued ▸ hold

/-- **A request** of a careful client keeps the invariant, unless a generation has come round. -/
theorem Inv.step (hinv : Inv s) {c : Request} (hcareful : Careful s c)
    (hunworn : Unworn (step s c).2.history) : Inv (step s c).2 := by
  have hst := hinv.stamped
  have hacquired := hinv.acquire
  cases c with
  | acquire => exact hacquired
  | emplace constructs =>
    show Inv (s.emplace constructs).2
    unfold emplace
    rcases acquire_cases hst with
      ⟨ptr, handle, history, hcall, hlive, -, -, hslots⟩ | ⟨history, hcall, -, -⟩
    · rw [hcall] at hacquired
      have hheld : handle ∈ history.session.live := hlive ▸ List.mem_cons_self
      simp only [hcall]
      -- a slot without a held handle has no object yet
      exact hacquired.construct hheld (hinv.not_live hslots) constructs
    · rw [hcall] at hacquired
      simp only [hcall]
      exact hacquired
  | build handle constructs =>
    obtain ⟨hissued, hnone⟩ := hcareful
    show Inv (s.build handle constructs).2
    unfold build
    by_cases hvalid : s.history.session.pool.valid handle = true
    · have hheld := (hst.valid_iff hissued).mp hvalid
      rw [get_of_valid hvalid]
      exact hinv.construct hheld (hnone hheld) constructs
    · rw [get_of_not_valid (Bool.eq_false_of_not_eq_true hvalid)]
      exact hinv
  | release handle =>
    obtain ⟨hissued, hlive⟩ := hcareful
    change Unworn (s.release handle).2.history at hunworn
    show Inv (s.release handle).2
    unfold release at hunworn ⊢
    by_cases hvalid : s.history.session.pool.valid handle = true
    · have hheld := (hst.valid_iff hissued).mp hvalid
      rw [get_of_valid hvalid] at hunworn ⊢
      obtain ⟨hleft, hsame⟩ := release_live hst hheld
      exact hinv.destroy hheld (hlive hheld) (hst.keep_release hissued hunworn) hleft hsame
    · rw [get_of_not_valid (Bool.eq_false_of_not_eq_true hvalid)]
      exact hinv
  | get handle => exact hinv
  | valid handle => exact hinv

/-- Slots taken back stay on record. -/
theorem unworn_of_step {c : Request} (hunworn : Unworn (step s c).2.history) :
    Unworn s.history := by
  cases c with
  | acquire => exact Unworn.of_call hunworn
  | emplace constructs =>
    have hhistory : (s.emplace constructs).2.history = (s.history.call (.acquire true)).2 := by
      unfold emplace
      generalize s.history.call (.acquire true) = result
      obtain ⟨reply, history⟩ := result
      dsimp only
      split
      · rfl
      · rfl
    exact Unworn.of_call (hhistory ▸ hunworn)
  | build handle constructs =>
    change Unworn (s.build handle constructs).2.history at hunworn
    unfold build at hunworn
    split at hunworn
    · exact hunworn
    · exact hunworn
  | release handle =>
    change Unworn (s.release handle).2.history at hunworn
    unfold release at hunworn
    split at hunworn
    · exact Unworn.of_call hunworn
    · exact hunworn
    · exact hunworn
  | get handle => exact hunworn
  | valid handle => exact hunworn

/-! ## What the invariant gives -/

/-- The object of a handle that is not held was destroyed. -/
theorem Inv.died (hinv : Inv s) {n : Handle × ℕ} (hn : n ∈ s.names)
    (hnot : n.1 ∉ s.history.session.live) : s.ledger.entries.died n.2 = 1 := by
  have hnodup : (s.names.map Prod.snd).Nodup := by
    rw [hinv.numbered]
    exact List.nodup_reverse.mpr List.nodup_range
  have hborn : n.2 < s.ledger.entries.born := by
    have hmem := List.mem_map_of_mem (f := Prod.snd) hn
    rw [hinv.numbered] at hmem
    simpa using hmem
  refine (s.ledger.accounted hinv.no_fault).gone n.2 hborn fun slot hslot => ?_
  -- only its own handle could hold it
  obtain ⟨handle, hname, hheld, -⟩ := (hinv.held_iff slot n.2).mp hslot
  have hsame : (handle, n.2) = n := List.inj_on_of_nodup_map hnodup hname hn rfl
  exact hnot (hsame ▸ hheld)

/-- **What holds** between requests. -/
theorem Inv.denotes (hinv : Inv s) : Denotes s := by
  have hvalid : ∀ n ∈ s.names, s.history.session.pool.valid n.1 = true ↔
      n.1 ∈ s.history.session.live := fun n hn => hinv.stamped.valid_iff (hinv.issued n hn)
  have halive : ∀ n ∈ s.names, s.history.session.pool.valid n.1 = true →
      s.ledger.entries.held (slotOf n.1) = some n.2 := fun n hn htrue =>
    (hinv.held_iff _ _).mpr ⟨n.1, hn, (hvalid n hn).mp htrue, rfl⟩
  have hgone : ∀ n ∈ s.names, s.history.session.pool.valid n.1 = false →
      s.ledger.entries.died n.2 = 1 := fun n hn hfalse =>
    hinv.died hn fun hheld => by rw [(hvalid n hn).mpr hheld] at hfalse; cases hfalse
  have haccounted := s.ledger.accounted hinv.no_fault
  refine ⟨hinv.no_fault, hinv.numbered, hinv.distinct, fun n hn htrue => ?_, hgone, ?_⟩
  · exact ⟨get_of_valid htrue, halive n hn htrue, (haccounted.held_alive _ _ (halive n hn htrue)).2⟩
  · constructor
    · intro hsettled n hn
      by_contra hne
      obtain ⟨hlt, hzero⟩ :=
        haccounted.held_alive _ _ (halive n hn (Bool.eq_true_of_not_eq_false hne))
      have hone := hsettled.destroyed_once n.2 hlt
      omega
    · intro hall
      refine ⟨hinv.no_fault, fun id hid => ?_⟩
      have hmem : id ∈ s.names.map Prod.snd := by
        rw [hinv.numbered]
        simpa using hid
      obtain ⟨n, hn, rfl⟩ := List.mem_map.mp hmem
      exact hgone n hn (hall n hn)

/-- **Handles denote their objects**: for every capacity that `init` accepts and every sequence of
requests of careful clients that takes no slot back 65535 times, no slot is constructed over and no
raw slot destroyed; a handle gives its own object as long as this lives, whatever else was released
and emplaced meanwhile, and once it is not valid its object was destroyed exactly once. The pool
itself ends no object. -/
theorem handles_denote_objects {hasStorage : Bool} {generations : ℕ → BitVec 16}
    {freeStack : ℕ → BitVec 32} {capacity elemSize : BitVec w}
    (hinit : init hasStorage generations freeStack capacity elemSize = .ok p)
    (requests : List Request)
    (hcareful : Mealy.EveryCall step Careful (start p) requests)
    (hunworn : Unworn (Mealy.final step (start p) requests).history) :
    Denotes (Mealy.final step (start p) requests) := by
  have hinv := hcareful.final_invariant_of_final Inv (fun s => Unworn s.history)
    (fun _ _ hun => unworn_of_step hun) (fun _ _ hinv hc hun => hinv.step hc hun)
    (inv_start hinit) hunworn
  exact hinv.denotes

/-- Two objects, one of them released and its slot used again; a constructor that throws; and a
caller that constructs an object in the slot of an `acquire`. -/
theorem handles_denote_objects_two :
    Denotes (Mealy.final step (start twoHandles)
      [.emplace true, .emplace true, .release 0x10000, .release 0x10000, .emplace false,
        .build 0x20000 true, .get 0x10000]) := by
  have honce : (Mealy.final step (start twoHandles)
      [.emplace true, .emplace true, .release 0x10000, .release 0x10000, .emplace false,
        .build 0x20000 true, .get 0x10000]).history.released = [0] := by
    decide
  apply handles_denote_objects init_twoHandles
  · decide
  · intro slot
    rw [honce]
    have hle : List.count slot [0] ≤ 1 := List.count_le_length
    exact hle.trans_lt (by norm_num)

end Objects

end HandlePool

end Memkit
