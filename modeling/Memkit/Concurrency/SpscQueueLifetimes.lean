import Memkit.Concurrency.SpscQueueLinear
import Memkit.Foundations.ObjectLedger

/-! # The life of the elements of an SPSC queue

The slots of `SpscQueue` are raw storage: the producer constructs an element in a slot, the consumer
moves it out and destroys it there. A ledger beside the queue enters every construction, use and
destruction at the step that makes it.

* **`enter`** — what a step does to the objects in the slots.
* **`heldSlots`** — the slots that hold an object, read off the counts and the two program counters.
* **`objects_settled`** — no step builds over an object or touches one that is not there, and the
  destructor, which calls `clear`, ends what is left. -/

namespace Memkit

namespace SpscQueue

variable {w : ℕ} {V : Type*} {cfg : Config w} {destroy : V → V} {s t : State w V} {l : Ledger ℕ}

/-- What a step does to the objects in the slots. -/
def enter (cfg : Config w) (s : State w V) (l : Ledger ℕ) : Label V → Ledger ℕ
  | .producer =>
    match s.producer with
    | .write _ tail => l.construct (slotIndex cfg tail) true
    | .overwriteDestroy _ _ head => l.destroy (slotIndex cfg head)
    | .overwriteWrite _ _ head => l.construct (slotIndex cfg head) true
    | _ => l
  | .consumer =>
    match s.consumer with
    | .popRead head => l.access (slotIndex cfg head)
    | .popDestroy head _ => l.destroy (slotIndex cfg head)
    | .peekRead head => l.access (slotIndex cfg head)
    | _ => l
  | _ => l

/-- A step of the queue and of the ledger beside it. -/
def trackedStep (cfg : Config w) (destroy : V → V) (p : State w V × Ledger ℕ) (a : Label V) :
    Option (State w V × Ledger ℕ) :=
  (step cfg destroy p.1 a).map fun t => (t, enter cfg p.1 p.2 a)

/-- How many elements past `tail_` the producer has already built in their slot. -/
def ProducerPc.built : ProducerPc w V → ℕ
  | .storeTail _ _ => 1
  | _ => 0

/-- The slots that hold an object: those of the elements not yet destroyed, and the one that the
producer is about to publish. -/
def heldSlots (cfg : Config w) (s : State w V) : Set ℕ :=
  {n | ∃ i, (popped s.trace).length + s.consumer.vacated ≤ i ∧
    i < (accepted s.trace).length + s.producer.built ∧ i % cfg.cap = n}

/-- The queue and its ledger agree. -/
structure Tracked (cfg : Config w) (p : State w V × Ledger ℕ) : Prop where
  fifo : FifoInv cfg p.1
  holds : p.2.Holds (heldSlots cfg p.1)

theorem tracked_initial (cfg : Config w) (memory : ℕ → V) :
    Tracked cfg (initial w memory, Ledger.empty ℕ) := by
  refine ⟨fifoInv_initial cfg memory, ?_⟩
  have hnone : heldSlots cfg (initial w memory) = ∅ := by
    ext n
    simp [heldSlots, initial, ProducerPc.built]
  rw [hnone]
  exact Ledger.holds_empty

/-- The elements that have a slot fit the capacity. -/
theorem FifoInv.built_room (h : FifoInv cfg s) :
    (accepted s.trace).length + s.producer.built ≤ (popped s.trace).length + cfg.cap := by
  have hroom := h.room
  have hprod := h.producer
  cases hpc : s.producer with
  | storeTail v tail =>
    rw [hpc] at hprod
    exact hprod.2.1
  | _ => exact hroom

/-- What the consumer takes out was accepted. -/
theorem FifoInv.vacated_le (h : FifoInv cfg s) :
    (popped s.trace).length + s.consumer.vacated ≤ (accepted s.trace).length := by
  have hle := h.popped_le
  have hcons := h.consumer
  cases hpc : s.consumer with
  | popStore head v =>
    rw [hpc] at hcons
    exact hcons.2.1
  | _ => exact hle

/-! ## One step -/

/-- A step that leaves the counts as they are. -/
theorem Tracked.same (h : Tracked cfg (s, l)) (ht : FifoInv cfg t)
    (hlo : (popped t.trace).length + t.consumer.vacated =
      (popped s.trace).length + s.consumer.vacated)
    (hhi : (accepted t.trace).length + t.producer.built =
      (accepted s.trace).length + s.producer.built) : Tracked cfg (t, l) := by
  refine ⟨ht, ?_⟩
  have hslots : heldSlots cfg t = heldSlots cfg s := by
    simp only [heldSlots, hlo, hhi]
  rw [hslots]
  exact h.holds

/-- The slot of the oldest element that is not destroyed holds an object. -/
theorem FifoInv.head_mem (h : FifoInv cfg s) (hvac : s.consumer.vacated = 0)
    (hlt : (popped s.trace).length < (accepted s.trace).length) :
    slotIndex cfg s.head ∈ heldSlots cfg s :=
  ⟨(popped s.trace).length, by omega, by omega, by rw [h.slotIndex_head]⟩

/-- **A step of the producer** builds only where there is no object. -/
theorem Tracked.producer (h : Tracked cfg (s, l)) (hpol : cfg.queuePolicy.overwrites = false)
    (hstep : producerStep cfg destroy s = some t) : Tracked cfg (t, enter cfg s l .producer) := by
  have hfifo : FifoInv cfg s := h.fifo
  have ht := hfifo.keep_producer hpol hstep
  have hprod := hfifo.producer
  cases producerStepsTo hstep with
  | room hpc hroom =>
    simp only [enter, hpc]
    exact h.same ht rfl (by simp [hpc, ProducerPc.built])
  | full hpc hfull hnot =>
    simp only [enter, hpc]
    exact h.same ht (by simp [Event.popped?]) (by simp [hpc, ProducerPc.built, Event.pushed?])
  | @write v tail hpc =>
    rw [hpc] at hprod
    obtain ⟨rfl, hroom⟩ := hprod
    -- the element is constructed in the slot of the tail, which holds none while there is room
    have hfree : slotIndex cfg s.tail ∉ heldSlots cfg s := by
      rintro ⟨i, hlo, hhi, hslot⟩
      simp only [hpc, ProducerPc.built] at hhi
      rw [hfifo.slotIndex_tail] at hslot
      exact cfg.slot_ne hhi (by omega) hslot
    simp only [enter, hpc]
    refine ⟨ht, ?_⟩
    have hslots : heldSlots cfg
        { s.setSlot (slotIndex cfg s.tail) v with producer := .storeTail v s.tail } =
          insert (slotIndex cfg s.tail) (heldSlots cfg s) := by
      ext n
      simp only [heldSlots, State.setSlot, hpc, ProducerPc.built, Set.mem_insert_iff,
        Set.mem_ofPred_eq, hfifo.slotIndex_tail]
      constructor
      · rintro ⟨i, hlo, hhi, rfl⟩
        rcases Nat.lt_succ_iff_lt_or_eq.mp hhi with hlt | rfl
        · exact .inr ⟨i, hlo, hlt, rfl⟩
        · exact .inl rfl
      · rintro (rfl | ⟨i, hlo, hhi, rfl⟩)
        · exact ⟨_, hfifo.vacated_le, Nat.lt_succ_self _, rfl⟩
        · exact ⟨i, hlo, Nat.lt_succ_of_lt hhi, rfl⟩
    rw [hslots]
    exact h.holds.construct hfree
  | storeTail hpc =>
    simp only [enter, hpc]
    exact h.same ht (by simp [Event.popped?]) (by simp [hpc, ProducerPc.built, Event.pushed?])
  -- a queue that does not overwrite takes none of the steps below
  | overwrite hpc hfull hover =>
    rw [hpol] at hover
    cases hover
  | overwriteDestroy hpc =>
    rw [hpc] at hprod
    exact hprod.elim
  | overwriteWrite hpc =>
    rw [hpc] at hprod
    exact hprod.elim
  | overwriteHead hpc =>
    rw [hpc] at hprod
    exact hprod.elim
  | overwriteTail hpc =>
    rw [hpc] at hprod
    exact hprod.elim

/-- **A step of the consumer** uses and destroys only objects that are there. -/
theorem Tracked.consumer (h : Tracked cfg (s, l)) (hstep : consumerStep cfg destroy s = some t) :
    Tracked cfg (t, enter cfg s l .consumer) := by
  have hfifo : FifoInv cfg s := h.fifo
  have ht := hfifo.keep_consumer hstep
  have hcons := hfifo.consumer
  cases consumerStepsTo hstep with
  | popEmpty hpc hempty =>
    simp only [enter, hpc]
    exact h.same ht (by simp [hpc, ConsumerPc.vacated, Event.popped?]) (by simp [Event.pushed?])
  | @popFound hasOut head hpc hne =>
    simp only [enter, hpc]
    refine h.same ht ?_ rfl
    cases hasOut <;> simp [hpc, ConsumerPc.vacated]
  | popRead hpc =>
    rw [hpc] at hcons
    obtain ⟨rfl, hlt⟩ := hcons
    have hkept := h.same ht (by simp [hpc, ConsumerPc.vacated]) rfl
    simp only [enter, hpc]
    refine ⟨ht, hkept.holds.access ?_⟩
    exact ht.head_mem rfl hlt
  | @popDestroy head out hpc =>
    rw [hpc] at hcons
    obtain ⟨rfl, hlt, -⟩ := hcons
    simp only [enter, hpc]
    refine ⟨ht, ?_⟩
    have hroom := hfifo.built_room
    have hslots : heldSlots cfg
        { s.setSlot (slotIndex cfg s.head) (destroy (s.slots (slotIndex cfg s.head))) with
          consumer := .popStore s.head (out.getD (s.slots (slotIndex cfg s.head))) } =
          heldSlots cfg s \ {slotIndex cfg s.head} := by
      ext n
      simp only [heldSlots, State.setSlot, hpc, ConsumerPc.vacated, Set.mem_sdiff,
        Set.mem_singleton_iff, Set.mem_ofPred_eq, hfifo.slotIndex_head]
      constructor
      · rintro ⟨i, hlo, hhi, rfl⟩
        -- the other elements are less than a lap behind the oldest one
        exact ⟨⟨i, by omega, hhi, rfl⟩, (cfg.slot_ne (by omega) (by omega)).symm⟩
      · rintro ⟨⟨i, hlo, hhi, rfl⟩, hne⟩
        refine ⟨i, ?_, hhi, rfl⟩
        rcases Nat.lt_or_ge (popped s.trace).length i with hlt' | hge
        · exact hlt'
        · obtain rfl : i = (popped s.trace).length := by omega
          exact absurd rfl hne
    rw [hslots]
    exact h.holds.destroy (hfifo.head_mem (by rw [hpc]; rfl) hlt)
  | popStore hpc =>
    simp only [enter, hpc]
    exact h.same ht (by simp [hpc, ConsumerPc.vacated, Event.popped?]) (by simp [Event.pushed?])
  | peekEmpty hpc hempty =>
    simp only [enter, hpc]
    exact h.same ht (by simp [hpc, ConsumerPc.vacated, Event.popped?]) (by simp [Event.pushed?])
  | peekFound hpc hne =>
    simp only [enter, hpc]
    exact h.same ht (by simp [hpc, ConsumerPc.vacated]) rfl
  | peekRead hpc =>
    rw [hpc] at hcons
    obtain ⟨rfl, hlt⟩ := hcons
    have hkept := h.same ht (by simp [hpc, ConsumerPc.vacated, Event.popped?])
      (by simp [Event.pushed?])
    simp only [enter, hpc]
    refine ⟨ht, hkept.holds.access ?_⟩
    exact ht.head_mem rfl (by simpa [Event.popped?, Event.pushed?] using hlt)

/-- **Every step** of the queue keeps the ledger right. -/
theorem Tracked.step (h : Tracked cfg (s, l)) (hpol : cfg.queuePolicy.overwrites = false)
    {a : Label V} (hstep : step cfg destroy s a = some t) : Tracked cfg (t, enter cfg s l a) := by
  have hfifo : FifoInv cfg s := h.fifo
  cases a with
  | push elem =>
    have ht := hfifo.keep_step hpol hstep
    simp only [SpscQueue.step, startPush] at hstep
    split at hstep
    · next hidle =>
      cases hstep
      exact h.same ht rfl (by simp [hidle, ProducerPc.built])
    · next hidle =>
      cases hstep
      exact h.same ht (by simp [Event.popped?]) (by simp [Event.pushed?])
    · cases hstep
  | producer => exact h.producer hpol hstep
  | pop hasOut =>
    have ht := hfifo.keep_step hpol hstep
    simp only [SpscQueue.step, startPop] at hstep
    split at hstep
    · next hidle =>
      cases hstep
      exact h.same ht (by simp [hidle, ConsumerPc.vacated]) rfl
    · cases hstep
  | peek hasOut =>
    have ht := hfifo.keep_step hpol hstep
    simp only [SpscQueue.step, startPeek] at hstep
    split at hstep
    · next hidle =>
      cases hstep
      exact h.same ht (by simp [hidle, ConsumerPc.vacated]) rfl
    · next hidle =>
      cases hstep
      exact h.same ht (by simp [Event.popped?]) (by simp [Event.pushed?])
    · cases hstep
  | consumer => exact h.consumer hstep

/-- Every run keeps the ledger right. -/
theorem Tracked.run {p q : State w V × Ledger ℕ} (h : Tracked cfg p)
    (hpol : cfg.queuePolicy.overwrites = false) {labels : List (Label V)}
    (hrun : Transition.run (trackedStep cfg destroy) p labels = some q) : Tracked cfg q := by
  refine Transition.run_invariant (Tracked cfg) (fun p a q hp hstep => ?_) h hrun
  obtain ⟨t, ht, rfl⟩ := Option.map_eq_some_iff.mp hstep
  exact Tracked.step hp hpol ht

/-! ## The destructor -/

/-- A `pop(nullptr)` that takes an element, step by step. -/
def dropOne : List (Label V) := [.pop false, .consumer, .consumer, .consumer]

/-- A `pop(nullptr)` that finds the queue empty. -/
def findEmpty : List (Label V) := [.pop false, .consumer]

/-- The loop `while (pop(nullptr, true) == status::ok)` of `clear` on a queue of so many elements. -/
def clearLabels : ℕ → List (Label V)
  | 0 => findEmpty
  | n + 1 => dropOne ++ clearLabels n

/-- The two stores at the end of `clear`. -/
def resetCounters (s : State w V) : State w V := { s with head := 0, tail := 0 }

/-- The ledger follows every run. -/
theorem exists_tracked_run {labels : List (Label V)}
    (hrun : Transition.run (step cfg destroy) s labels = some t) (l : Ledger ℕ) :
    ∃ l', Transition.run (trackedStep cfg destroy) (s, l) labels = some (t, l') := by
  induction labels generalizing s l with
  | nil =>
    obtain rfl : s = t := by simpa using hrun
    exact ⟨l, rfl⟩
  | cons a labels ih =>
    obtain ⟨u, hu, hrest⟩ := Option.bind_eq_some_iff.mp hrun
    obtain ⟨l', hl'⟩ := ih hrest (enter cfg s l a)
    refine ⟨l', ?_⟩
    rw [Transition.run_cons, trackedStep, hu]
    exact hl'

/-- With no other call in progress, a `pop(nullptr)` takes the oldest element. -/
theorem FifoInv.run_dropOne (destroy : V → V) (h : FifoInv cfg s) (hidle : s.consumer = .idle) {v : V}
    {rest : List V} (hcontents : contents s = v :: rest) :
    ∃ t, Transition.run (step cfg destroy) s dropOne = some t ∧ t.producer = s.producer ∧
      t.consumer = .idle ∧ t.trace = s.trace ++ [.pop (some v) .ok] := by
  have hlen := h.length_contents
  rw [hcontents, List.length_cons] at hlen
  have hne : s.head ≠ s.tail := fun heq => by
    have hall := h.empty_iff.mp heq
    omega
  have hv : s.slots (slotIndex cfg s.head) = v := by
    have hold := h.stored (popped s.trace).length (by rw [hidle]; rfl) (by omega)
    have hfirst : (accepted s.trace)[(popped s.trace).length]? = some v := by
      rw [h.accepted_eq, hcontents]
      simp
    rw [h.slotIndex_head]
    exact Option.some.inj (hold.symm.trans hfirst)
  refine ⟨({ s.setSlot (slotIndex cfg s.head) (destroy v) with
    head := s.head + 1, consumer := .idle } : State w V).log (.pop (some v) .ok), ?_, rfl, rfl, rfl⟩
  simp [dropOne, step, startPop, hidle, consumerStep, hne, hv]

/-- With no other call in progress, a `pop(nullptr)` on an empty queue says so. -/
theorem FifoInv.run_findEmpty (h : FifoInv cfg s) (hidle : s.consumer = .idle)
    (hcontents : contents s = []) :
    Transition.run (step cfg destroy) s findEmpty = some (s.log (.pop none .empty)) := by
  have hlen := h.length_contents
  rw [hcontents, List.length_nil] at hlen
  have hle := h.popped_le
  have heq : s.head = s.tail := h.empty_iff.mpr (by omega)
  cases s
  simp only at hidle heq
  subst hidle heq
  simp [findEmpty, step, startPop, consumerStep]

/-- **`clear`** pops everything and then finds the queue empty. -/
theorem FifoInv.run_clear (destroy : V → V) (hpol : cfg.queuePolicy.overwrites = false) (h : FifoInv cfg s)
    (hidle : s.consumer = .idle) {elems : List V} (hcontents : contents s = elems) :
    ∃ t, Transition.run (step cfg destroy) s (clearLabels elems.length) = some t ∧
      t.producer = s.producer ∧ t.consumer = .idle ∧ contents t = [] ∧
      t.trace = s.trace ++ elems.map (fun v => .pop (some v) .ok) ++ [.pop none .empty] := by
  induction elems generalizing s with
  | nil =>
    refine ⟨_, h.run_findEmpty hidle hcontents, rfl, hidle, ?_, by simp⟩
    rw [contents_of_neither (s := s) rfl rfl rfl, hcontents]
  | cons v rest ih =>
    obtain ⟨u, hu, hprod, hcons, htrace⟩ := h.run_dropOne destroy hidle hcontents
    have hinv : FifoInv cfg u := Transition.run_invariant (FifoInv cfg)
      (fun _ _ _ hs hstep => hs.keep_step hpol hstep) h hu
    have hleft : contents u = rest := by
      have hfirst : (accepted s.trace)[(popped s.trace).length]? = some v := by
        rw [h.accepted_eq, hcontents]
        simp
      have hpopped := FifoInv.contents_pop hfirst htrace
      rw [hcontents, List.cons.injEq] at hpopped
      exact hpopped.2.symm
    obtain ⟨t, ht, hprod', hcons', hnone, htrace'⟩ := ih hinv hcons hleft
    refine ⟨t, ?_, hprod'.trans hprod, hcons', hnone, ?_⟩
    · rw [List.length_cons, clearLabels, Transition.run_append, hu]
      exact ht
    · rw [htrace', htrace]
      simp

/-- **No element of an SPSC queue is leaked, destroyed twice or built over.** For every capacity that
`init` accepts, every policy but overwriting and every interleaving: no step constructs in a slot
that holds an object, or uses or destroys one that is not there; the slots that hold an object are
those of the elements accepted and not yet destroyed, and the one about to be published. When no call
is in progress, `clear` (so the destructor) pops what is left and ends every object, and the queue is
as after `init`. -/
theorem objects_settled {capacity : BitVec w} {policy : SpscPolicy}
    (hinit : init true capacity policy = .ok cfg) (hpol : policy ≠ .overwriteOnFull)
    {memory : ℕ → V} {labels : List (Label V)}
    (hrun : Transition.run (trackedStep cfg destroy) (initial w memory, .empty ℕ) labels =
      some (s, l)) :
    l.fault = false ∧ (∀ n, l.live n = true ↔ n ∈ heldSlots cfg s) ∧
    (s.producer = .idle → s.consumer = .idle →
      ∃ t l', Transition.run (trackedStep cfg destroy) (s, l) (clearLabels (contents s).length) =
          some (t, l') ∧
        t.trace = s.trace ++ (contents s).map (fun v => .pop (some v) .ok) ++ [.pop none .empty] ∧
        l'.Settled ∧ { resetCounters t with trace := [] } = initial w t.slots) := by
  obtain ⟨rfl, rfl⟩ := init_eq_ok hinit
  have hover := overwrites_eq_false hpol
  have h : Tracked cfg (s, l) := (tracked_initial cfg memory).run hover hrun
  have hfifo : FifoInv cfg s := h.fifo
  refine ⟨h.holds.no_fault, h.holds.live_iff, fun hprod hcons => ?_⟩
  obtain ⟨t, ht, hprod', hcons', hnone, htrace⟩ :=
    hfifo.run_clear destroy hover hcons rfl
  obtain ⟨l', hl'⟩ := exists_tracked_run ht l
  have hend : Tracked cfg (t, l') := h.run hover hl'
  refine ⟨t, l', hl', htrace, ?_, ?_⟩
  · have hinv : FifoInv cfg t := hend.fifo
    have hslots : heldSlots cfg t = ∅ := by
      have hlen := hinv.length_contents
      rw [hnone, List.length_nil] at hlen
      ext n
      simp only [heldSlots, hcons', hprod', hprod, ConsumerPc.vacated, ProducerPc.built,
        Set.mem_ofPred_eq, Set.mem_empty_iff_false, iff_false]
      rintro ⟨i, hlo, hhi, -⟩
      omega
    have hholds : l'.Holds (heldSlots cfg t) := hend.holds
    rw [hslots] at hholds
    exact hholds.settled
  · simp [resetCounters, initial, hprod', hprod, hcons']

/-- A push that is under way while the consumer destroys, then the destructor. -/
theorem objects_settled_two :
    ∃ s l, Transition.run (trackedStep (twoSlots .none) (fun _ : ℕ => 0))
        (initial 64 fun _ => 0, .empty ℕ)
        [.push (some 7), .producer, .producer, .producer, .pop true, .push (some 8), .consumer,
          .producer, .consumer, .producer, .consumer, .producer, .consumer] = some (s, l) ∧
      l.fault = false ∧ contents s = [8] := by
  obtain ⟨⟨s, l⟩, hs, hcontents⟩ := Transition.exists_run_eq
    (trackedStep (twoSlots .none) (fun _ : ℕ => 0)) (initial 64 fun _ => 0, .empty ℕ)
    [.push (some 7), .producer, .producer, .producer, .pop true, .push (some 8), .consumer,
      .producer, .consumer, .producer, .consumer, .producer, .consumer]
    (fun p => contents p.1) (b := [8]) (by decide)
  exact ⟨s, l, hs, (objects_settled (init_twoSlots .none) (by decide) hs).1, hcontents⟩

end SpscQueue

end Memkit
