import Memkit.Concurrency.SpscQueue

/-! # The SPSC queue is a FIFO under the non-overwriting policies

Each thread works with a stale copy of the other's counter. `FifoInv` ties the two counters, both
threads' snapshots and the slots to the exact history: `head_` and `tail_` are the wrapped lengths
of the popped and accepted sequences, at most `capacity` apart, and every unconsumed element sits
in the slot of its position. One lemma per thread shows that a step keeps it; the four guarantees
are read off it. -/

namespace Memkit

namespace SpscQueue

variable {w : ℕ} {V : Type*}

/-- How many elements past `head_` the consumer has already taken out of their slot. -/
def ConsumerPc.vacated : ConsumerPc w V → ℕ
  | .popStore _ _ => 1
  | _ => 0

/-- What the producer's snapshots say: it knows the exact tail, and past the fullness check there
is room for one more element. -/
def ProducerOk (cfg : Config w) (tail : BitVec w) (slots : ℕ → V) (acc pop : List V) :
    ProducerPc w V → Prop
  | .idle => True
  | .loadHead _ t => t = tail
  | .write _ t => t = tail ∧ acc.length < pop.length + cfg.cap
  | .storeTail v t =>
    t = tail ∧ acc.length < pop.length + cfg.cap ∧ slots (acc.length % cfg.cap) = v
  | _ => False

/-- What the consumer's snapshots say: it knows the exact head, and past the emptiness check the
oldest element is there. -/
def ConsumerOk (head : BitVec w) (acc pop : List V) : ConsumerPc w V → Prop
  | .idle => True
  | .popLoadTail _ h => h = head
  | .popRead h => h = head ∧ pop.length < acc.length
  | .popDestroy h out => h = head ∧ pop.length < acc.length ∧ ∀ v ∈ out, acc[pop.length]? = some v
  | .popStore h v => h = head ∧ pop.length < acc.length ∧ acc[pop.length]? = some v
  | .peekLoadTail h => h = head
  | .peekRead h => h = head ∧ pop.length < acc.length

/-- The invariant of the non-overwriting queue. -/
structure FifoInv (cfg : Config w) (s : State w V) : Prop where
  head_eq : s.head = BitVec.ofNat w (popped s.trace).length
  tail_eq : s.tail = BitVec.ofNat w (accepted s.trace).length
  order : popped s.trace <+: accepted s.trace
  room : (accepted s.trace).length ≤ (popped s.trace).length + cfg.cap
  stored : ∀ i, (popped s.trace).length + s.consumer.vacated ≤ i → i < (accepted s.trace).length →
    (accepted s.trace)[i]? = some (s.slots (i % cfg.cap))
  producer : ProducerOk cfg s.tail s.slots (accepted s.trace) (popped s.trace) s.producer
  consumer : ConsumerOk s.head (accepted s.trace) (popped s.trace) s.consumer

variable {cfg : Config w} {destroy : V → V} {s t : State w V}

/-! ## Initial state and arithmetic of the counters -/

theorem fifoInv_initial (cfg : Config w) (memory : ℕ → V) : FifoInv cfg (initial w memory) where
  head_eq := rfl
  tail_eq := rfl
  order := List.prefix_refl _
  room := by simp [initial]
  stored := by
    intro i _ hi
    simp [initial] at hi
  producer := trivial
  consumer := trivial

namespace FifoInv

theorem popped_le (h : FifoInv cfg s) : (popped s.trace).length ≤ (accepted s.trace).length :=
  h.order.length_le

/-- The counters differ by exactly the number of unconsumed elements. -/
theorem toNat_tail_sub_head (h : FifoInv cfg s) :
    (s.tail - s.head).toNat = (accepted s.trace).length - (popped s.trace).length := by
  have hcap := cfg.cap_lt
  have hroom := h.room
  rw [h.tail_eq, h.head_eq]
  exact WrapCounter.toNat_sub h.popped_le (by omega)

/-- The fullness test of `push` is exact. -/
theorem full_iff (h : FifoInv cfg s) :
    cfg.capacity ≤ s.tail - s.head ↔
      (accepted s.trace).length = (popped s.trace).length + cfg.cap := by
  have hroom := h.room
  have hle := h.popped_le
  rw [BitVec.le_def, h.toNat_tail_sub_head]
  change cfg.cap ≤ _ ↔ _
  omega

/-- The emptiness test of `pop` and `peek` is exact. -/
theorem empty_iff (h : FifoInv cfg s) :
    s.head = s.tail ↔ (popped s.trace).length = (accepted s.trace).length := by
  have hcap := cfg.cap_lt
  have hroom := h.room
  rw [h.head_eq, h.tail_eq]
  exact WrapCounter.ofNat_eq_iff h.popped_le (by omega)

/-- `head_` picks the slot of the next element to pop. -/
theorem slotIndex_head (h : FifoInv cfg s) :
    slotIndex cfg s.head = (popped s.trace).length % cfg.cap := by
  rw [h.head_eq, cfg.slotIndex_ofNat]

/-- `tail_` picks the slot of the next element to push. -/
theorem slotIndex_tail (h : FifoInv cfg s) :
    slotIndex cfg s.tail = (accepted s.trace).length % cfg.cap := by
  rw [h.tail_eq, cfg.slotIndex_ofNat]

end FifoInv

/-- A consumer's snapshots stay right when the producer publishes an element. -/
theorem ConsumerOk.append {head : BitVec w} {acc pop : List V} {pc : ConsumerPc w V}
    (h : ConsumerOk head acc pop pc) (v : V) : ConsumerOk head (acc ++ [v]) pop pc := by
  have hlen : (acc ++ [v]).length = acc.length + 1 := by simp
  cases pc with
  | idle => trivial
  | popLoadTail hasOut head' => exact h
  | popRead head' => exact ⟨h.1, by rw [hlen]; exact Nat.lt_succ_of_lt h.2⟩
  | popDestroy head' out =>
    obtain ⟨h1, h2, h3⟩ := h
    exact ⟨h1, by omega, fun x hx => by rw [List.getElem?_append_left h2]; exact h3 x hx⟩
  | popStore head' elem =>
    obtain ⟨h1, h2, h3⟩ := h
    exact ⟨h1, by omega, by rw [List.getElem?_append_left h2]; exact h3⟩
  | peekLoadTail head' => exact h
  | peekRead head' => exact ⟨h.1, by rw [hlen]; exact Nat.lt_succ_of_lt h.2⟩

/-! ## One step of the producer -/

/-- Publishing: `tail_` moves past an element that is already in its slot. -/
theorem FifoInv.publish (h : FifoInv cfg s) {v : V}
    (hlt : (accepted s.trace).length < (popped s.trace).length + cfg.cap)
    (hslot : s.slots ((accepted s.trace).length % cfg.cap) = v) :
    FifoInv cfg
      (({ s with tail := s.tail + 1, producer := .idle } : State w V).log (.push (some v) .ok)) where
  head_eq := by simpa [Event.popped?] using h.head_eq
  tail_eq := by
    rw [State.log]
    simp only [accepted_concat, Event.pushed?, Option.toList_some, List.length_append,
      List.length_singleton]
    rw [h.tail_eq, WrapCounter.ofNat_succ]
  order := by
    simp only [State.log, accepted_concat, popped_concat, Event.pushed?, Event.popped?,
      Option.toList_some, Option.toList_none, List.append_nil]
    exact h.order.trans (List.prefix_append _ _)
  room := by
    simp only [State.log, accepted_concat, popped_concat, Event.pushed?, Event.popped?,
      Option.toList_some, Option.toList_none, List.append_nil, List.length_append,
      List.length_singleton]
    omega
  stored := by
    intro i hi hlen
    simp only [State.log, accepted_concat, popped_concat, Event.pushed?, Event.popped?,
      Option.toList_some, Option.toList_none, List.append_nil, List.length_append,
      List.length_singleton] at hi hlen ⊢
    rcases Nat.lt_or_ge i (accepted s.trace).length with hold | hnew
    · rw [List.getElem?_append_left hold]
      exact h.stored i hi hold
    · obtain rfl : i = (accepted s.trace).length := by omega
      rw [List.getElem?_concat_length, hslot]
  producer := trivial
  consumer := by
    simpa [Event.pushed?, Event.popped?] using h.consumer.append v

/-- A producer step keeps the invariant when the policy does not overwrite. -/
theorem FifoInv.keep_producer (hpol : cfg.queuePolicy.overwrites = false) (h : FifoInv cfg s)
    (hstep : producerStep cfg destroy s = some t) : FifoInv cfg t := by
  have hprod := h.producer
  cases producerStepsTo hstep with
  | full hpc _ _ =>
    -- the call returns without touching the queue
    exact ⟨by simpa [Event.popped?] using h.head_eq, by simpa [Event.pushed?] using h.tail_eq,
      by simpa [Event.pushed?, Event.popped?] using h.order,
      by simpa [Event.pushed?, Event.popped?] using h.room,
      by simpa [Event.pushed?, Event.popped?] using h.stored, trivial,
      by simpa [Event.pushed?, Event.popped?] using h.consumer⟩
  | @room v tail hpc hroom =>
    rw [hpc] at hprod
    obtain rfl : tail = s.tail := hprod
    have hlt : (accepted s.trace).length < (popped s.trace).length + cfg.cap :=
      lt_of_le_of_ne h.room fun heq => hroom (h.full_iff.mpr heq)
    exact ⟨h.head_eq, h.tail_eq, h.order, h.room, h.stored, ⟨rfl, hlt⟩, h.consumer⟩
  | @write v tail hpc =>
    rw [hpc] at hprod
    obtain ⟨rfl, hlt⟩ := hprod
    refine ⟨h.head_eq, h.tail_eq, h.order, h.room, ?_, ⟨rfl, hlt, ?_⟩, h.consumer⟩
    · intro i hi hlen
      have hpos : (popped s.trace).length ≤ i := le_trans (Nat.le_add_right _ _) hi
      have hne : i % cfg.cap ≠ slotIndex cfg s.tail := by
        rw [h.slotIndex_tail]
        exact cfg.slot_ne hlen (lt_of_lt_of_le hlt (Nat.add_le_add_right hpos _))
      simp only [State.setSlot, Function.update_of_ne hne]
      exact h.stored i hi hlen
    · simp only [State.setSlot, h.slotIndex_tail, Function.update_self]
  | @storeTail v tail hpc =>
    rw [hpc] at hprod
    obtain ⟨rfl, hlt, hslot⟩ := hprod
    exact h.publish hlt hslot
  | overwrite _ _ hover => cases hpol.symm.trans hover
  | overwriteDestroy hpc => rw [hpc] at hprod; exact hprod.elim
  | overwriteWrite hpc => rw [hpc] at hprod; exact hprod.elim
  | overwriteHead hpc => rw [hpc] at hprod; exact hprod.elim
  | overwriteTail hpc => rw [hpc] at hprod; exact hprod.elim

/-! ## One step of the consumer -/

/-- A consumer that returns without having moved `head_` keeps the invariant. -/
theorem FifoInv.consumer_returns (h : FifoInv cfg s) {e : Event V}
    (hvac : s.consumer.vacated = 0) (hpush : Event.pushed? e = none)
    (hpop : Event.popped? e = none) :
    FifoInv cfg (({ s with consumer := .idle } : State w V).log e) := by
  refine ⟨by simpa [hpop] using h.head_eq, by simpa [hpush] using h.tail_eq,
    by simpa [hpush, hpop] using h.order, by simpa [hpush, hpop] using h.room, ?_,
    by simpa [hpush, hpop] using h.producer, trivial⟩
  have hstored := h.stored
  rw [hvac] at hstored
  simpa [hpush, hpop, ConsumerPc.vacated] using hstored

/-- A consumer that goes on with right snapshots keeps the invariant. -/
theorem FifoInv.consumer_moves (h : FifoInv cfg s) {pc : ConsumerPc w V}
    (hvac : s.consumer.vacated ≤ pc.vacated)
    (hpc : ConsumerOk s.head (accepted s.trace) (popped s.trace) pc) :
    FifoInv cfg { s with consumer := pc } :=
  ⟨h.head_eq, h.tail_eq, h.order, h.room,
    fun i hi hlen => h.stored i (le_trans (Nat.add_le_add_left hvac _) hi) hlen, h.producer, hpc⟩

/-- Destroying the oldest element leaves the other slots alone. -/
theorem FifoInv.vacate (h : FifoInv cfg s) {v x : V}
    (hlt : (popped s.trace).length < (accepted s.trace).length)
    (hv : (accepted s.trace)[(popped s.trace).length]? = some v) :
    FifoInv cfg { s.setSlot (slotIndex cfg s.head) x with consumer := .popStore s.head v } := by
  refine ⟨h.head_eq, h.tail_eq, h.order, h.room, ?_, ?_, ⟨rfl, hlt, hv⟩⟩
  · intro i hi hlen
    simp only [ConsumerPc.vacated, State.setSlot] at hi hlen ⊢
    have hroom := h.room
    have hne : i % cfg.cap ≠ slotIndex cfg s.head := by
      rw [h.slotIndex_head]
      exact (cfg.slot_ne (by omega) (by omega)).symm
    rw [Function.update_of_ne hne]
    refine h.stored i ?_ hlen
    cases hc : s.consumer <;> simp only [ConsumerPc.vacated] <;> omega
  · have hprod := h.producer
    change ProducerOk cfg s.tail (Function.update s.slots (slotIndex cfg s.head) x)
      (accepted s.trace) (popped s.trace) s.producer
    cases hpc : s.producer with
    | storeTail v' tail =>
      rw [hpc] at hprod
      obtain ⟨htail, hroom, hslot⟩ := hprod
      have hne : (accepted s.trace).length % cfg.cap ≠ slotIndex cfg s.head := by
        rw [h.slotIndex_head]
        exact (cfg.slot_ne hlt hroom).symm
      exact ⟨htail, hroom, by rw [Function.update_of_ne hne, hslot]⟩
    | _ =>
      rw [hpc] at hprod
      exact hprod

/-- Publishing the new head: one more element is popped. -/
theorem FifoInv.advance (h : FifoInv cfg s) {v : V} {head : BitVec w}
    (hpc : s.consumer = .popStore head v) :
    FifoInv cfg
      (({ s with head := s.head + 1, consumer := .idle } : State w V).log (.pop (some v) .ok)) := by
  have hcons := h.consumer
  rw [hpc] at hcons
  obtain ⟨-, hlt, hv⟩ := hcons
  have hstored := h.stored
  simp only [hpc, ConsumerPc.vacated] at hstored
  refine ⟨?_, by simpa [Event.pushed?] using h.tail_eq, ?_, ?_, ?_, ?_, trivial⟩
  · simp only [State.log, popped_concat, Event.popped?, Option.toList_some, List.length_append,
      List.length_singleton]
    rw [h.head_eq, WrapCounter.ofNat_succ]
  · simp only [State.log, accepted_concat, popped_concat, Event.pushed?, Event.popped?,
      Option.toList_some, Option.toList_none, List.append_nil]
    -- the element in hand is the oldest of those that are not yet popped
    obtain ⟨rest, hrest⟩ := h.order
    rw [← hrest, List.getElem?_append_right le_rfl, Nat.sub_self] at hv
    cases rest with
    | nil => simp at hv
    | cons x rest =>
      obtain rfl : x = v := by simpa using hv
      exact ⟨rest, by rw [← hrest]; simp⟩
  · have hroom := h.room
    simp only [State.log, accepted_concat, popped_concat, Event.pushed?, Event.popped?,
      Option.toList_some, Option.toList_none, List.append_nil, List.length_append,
      List.length_singleton]
    omega
  · simpa [Event.pushed?, Event.popped?, ConsumerPc.vacated] using hstored
  · have hprod := h.producer
    simp only [State.log, accepted_concat, popped_concat, Event.pushed?, Event.popped?,
      Option.toList_some, Option.toList_none, List.append_nil]
    cases hp : s.producer with
    | idle => trivial
    | loadHead v' tail => rw [hp] at hprod; exact hprod
    | write v' tail =>
      rw [hp] at hprod
      refine ⟨hprod.1, ?_⟩
      simp only [List.length_append, List.length_singleton]
      exact lt_of_lt_of_le hprod.2 (by omega)
    | storeTail v' tail =>
      rw [hp] at hprod
      refine ⟨hprod.1, ?_, hprod.2.2⟩
      simp only [List.length_append, List.length_singleton]
      exact lt_of_lt_of_le hprod.2.1 (by omega)
    | _ => rw [hp] at hprod; exact hprod.elim

/-- A consumer step keeps the invariant. -/
theorem FifoInv.keep_consumer (h : FifoInv cfg s)
    (hstep : consumerStep cfg destroy s = some t) : FifoInv cfg t := by
  have hcons := h.consumer
  cases consumerStepsTo hstep with
  | popEmpty hpc _ => exact h.consumer_returns (by rw [hpc]; rfl) rfl rfl
  | @popFound hasOut head hpc hne =>
    rw [hpc] at hcons
    obtain rfl : head = s.head := hcons
    have hvac : s.consumer.vacated = 0 := by rw [hpc]; rfl
    have hlt : (popped s.trace).length < (accepted s.trace).length :=
      lt_of_le_of_ne h.popped_le fun heq => hne (h.empty_iff.mpr heq)
    cases hasOut with
    | true => exact h.consumer_moves hvac.le ⟨rfl, hlt⟩
    | false => exact h.consumer_moves hvac.le ⟨rfl, hlt, by simp⟩
  | @popRead head hpc =>
    rw [hpc] at hcons
    obtain ⟨rfl, hlt⟩ := hcons
    refine h.consumer_moves (by rw [hpc]; rfl) ⟨rfl, hlt, ?_⟩
    have hold := h.stored _ (by rw [hpc]; rfl) hlt
    simpa [h.slotIndex_head] using hold
  | @popDestroy head out hpc =>
    rw [hpc] at hcons
    obtain ⟨rfl, hlt, hout⟩ := hcons
    refine h.vacate hlt ?_
    cases out with
    | none =>
      rw [Option.getD_none, h.slotIndex_head]
      exact h.stored _ (by rw [hpc]; rfl) hlt
    | some v => exact hout v rfl
  | @popStore head v hpc =>
    rw [hpc] at hcons
    obtain ⟨rfl, -, -⟩ := hcons
    exact h.advance hpc
  | peekEmpty hpc _ => exact h.consumer_returns (by rw [hpc]; rfl) rfl rfl
  | @peekFound head hpc hne =>
    rw [hpc] at hcons
    obtain rfl : head = s.head := hcons
    have hvac : s.consumer.vacated = 0 := by rw [hpc]; rfl
    exact h.consumer_moves hvac.le
      ⟨rfl, lt_of_le_of_ne h.popped_le fun heq => hne (h.empty_iff.mpr heq)⟩
  | peekRead hpc => exact h.consumer_returns (by rw [hpc]; rfl) rfl rfl

/-! ## Whole runs -/

theorem FifoInv.keep_step (hpol : cfg.queuePolicy.overwrites = false) (h : FifoInv cfg s)
    {a : Label V} (hstep : step cfg destroy s a = some t) : FifoInv cfg t := by
  cases a with
  | push elem =>
    simp only [step, startPush] at hstep
    split at hstep
    · cases hstep
      exact ⟨h.head_eq, h.tail_eq, h.order, h.room, h.stored, rfl, h.consumer⟩
    · cases hstep
      exact ⟨by simpa [Event.popped?] using h.head_eq, by simpa [Event.pushed?] using h.tail_eq,
        by simpa [Event.pushed?, Event.popped?] using h.order,
        by simpa [Event.pushed?, Event.popped?] using h.room,
        by simpa [Event.pushed?, Event.popped?] using h.stored,
        by simpa [Event.pushed?, Event.popped?] using h.producer,
        by simpa [Event.pushed?, Event.popped?] using h.consumer⟩
    · cases hstep
  | producer => exact h.keep_producer hpol hstep
  | pop hasOut =>
    simp only [step, startPop] at hstep
    split at hstep
    · rename_i hidle
      cases hstep
      exact h.consumer_moves (by rw [hidle]; rfl) rfl
    · cases hstep
  | peek hasOut =>
    simp only [step, startPeek] at hstep
    split at hstep
    · rename_i hidle
      cases hstep
      exact h.consumer_moves (by rw [hidle]; rfl) rfl
    · rename_i hidle
      cases hstep
      simpa [← hidle] using h.consumer_returns (e := .peek none .nullPtr) (by rw [hidle]; rfl) rfl rfl
    · cases hstep
  | consumer => exact h.keep_consumer hstep

/-- Every state of a non-overwriting run satisfies the invariant. -/
theorem fifoInv_run (hpol : cfg.queuePolicy.overwrites = false) {memory : ℕ → V}
    {labels : List (Label V)}
    (hrun : Transition.run (step cfg destroy) (initial w memory) labels = some s) :
    FifoInv cfg s :=
  Transition.run_invariant (FifoInv cfg) (fun _ _ _ hinv hstep => hinv.keep_step hpol hstep)
    (fifoInv_initial cfg memory) hrun

/-! ## The guarantees -/

/-- The element pushed as number `i` has been published and not popped. -/
def Unconsumed (s : State w V) (i : ℕ) : Prop :=
  (popped s.trace).length ≤ i ∧ i < (accepted s.trace).length

/-- Slot `n` holds an unconsumed element: the one whose position picks this slot. -/
def HoldsUnconsumed (cfg : Config w) (s : State w V) (n : ℕ) : Prop :=
  ∃ i, Unconsumed s i ∧ i % cfg.cap = n

/-- The slot that the producer's next step writes, if it writes one. -/
def writtenSlot (cfg : Config w) (s : State w V) : Option ℕ :=
  match s.producer with
  | .write _ tail => some (slotIndex cfg tail)
  | .overwriteDestroy _ _ head => some (slotIndex cfg head)
  | .overwriteWrite _ _ head => some (slotIndex cfg head)
  | _ => none

/-- In a state satisfying the invariant every element still to be read is in its slot. -/
theorem FifoInv.slot_of_unconsumed (h : FifoInv cfg s) {i : ℕ} (hi : Unconsumed s i)
    (hvac : s.consumer.vacated = 0) : (accepted s.trace)[i]? = some (s.slots (i % cfg.cap)) :=
  h.stored i (by rw [hvac]; exact hi.1) hi.2

/-- The producer only ever writes the slot after the newest element. -/
theorem FifoInv.writtenSlot_not_unconsumed (h : FifoInv cfg s) {n : ℕ}
    (hn : writtenSlot cfg s = some n) : ¬ HoldsUnconsumed cfg s n := by
  rintro ⟨i, ⟨hlo, hhi⟩, rfl⟩
  have hprod := h.producer
  cases hpc : s.producer with
  | write v tail =>
    rw [hpc] at hprod
    obtain ⟨rfl, hlt⟩ := hprod
    simp only [writtenSlot, hpc, Option.some.injEq, h.slotIndex_tail] at hn
    exact cfg.slot_ne hhi (by omega) hn.symm
  | overwriteDestroy v tail head => rw [hpc] at hprod; exact hprod
  | overwriteWrite v tail head => rw [hpc] at hprod; exact hprod
  | _ => simp [writtenSlot, hpc] at hn

/-- A step that makes `push` return full loads `head_` while the queue is full. -/
theorem FifoInv.full_exact (h : FifoInv cfg s) {a : Label V} {elem : Option V}
    (hret : returned cfg s a = some (.push elem .full)) :
    (accepted s.trace).length = (popped s.trace).length + cfg.cap := by
  cases a with
  | push elem => cases elem <;> simp [returned] at hret
  | producer =>
    have hprod := h.producer
    cases hpc : s.producer with
    | loadHead v tail =>
      rw [hpc] at hprod
      obtain rfl : tail = s.tail := hprod
      simp only [returned, hpc, Option.ite_none_right_eq_some] at hret
      exact h.full_iff.mp hret.1.1
    | _ => simp [returned, hpc] at hret
  | pop hasOut => simp [returned] at hret
  | peek hasOut => simp [returned] at hret
  | consumer => cases hpc : s.consumer <;> simp [returned, hpc] at hret

/-- A step that makes `pop` return empty loads `tail_` while the queue is empty. -/
theorem FifoInv.empty_exact (h : FifoInv cfg s) {a : Label V} {elem : Option V}
    (hret : returned cfg s a = some (.pop elem .empty)) :
    (accepted s.trace).length = (popped s.trace).length := by
  cases a with
  | push elem => cases elem <;> simp [returned] at hret
  | producer => cases hpc : s.producer <;> simp [returned, hpc] at hret
  | pop hasOut => simp [returned] at hret
  | peek hasOut => simp [returned] at hret
  | consumer =>
    have hcons := h.consumer
    cases hpc : s.consumer with
    | popLoadTail hasOut head =>
      rw [hpc] at hcons
      obtain rfl : head = s.head := hcons
      simp only [returned, hpc, Option.ite_none_right_eq_some] at hret
      exact (h.empty_iff.mp hret.1).symm
    | _ => simp [returned, hpc] at hret

/-- A step that makes `peek` return an element returns the oldest unconsumed one. -/
theorem FifoInv.peek_exact (h : FifoInv cfg s) {a : Label V} {v : V}
    (hret : returned cfg s a = some (.peek (some v) .ok)) :
    (accepted s.trace)[(popped s.trace).length]? = some v := by
  cases a with
  | push elem => cases elem <;> simp [returned] at hret
  | producer => cases hpc : s.producer <;> simp [returned, hpc] at hret
  | pop hasOut => simp [returned] at hret
  | peek hasOut => simp [returned] at hret
  | consumer =>
    have hcons := h.consumer
    cases hpc : s.consumer with
    | peekRead head =>
      rw [hpc] at hcons
      obtain ⟨rfl, hlt⟩ := hcons
      simp only [returned, hpc, h.slotIndex_head, Option.some.injEq, Event.peek.injEq,
        and_true] at hret
      rw [← hret]
      exact h.slot_of_unconsumed ⟨le_rfl, hlt⟩ (by rw [hpc]; rfl)
    | _ => simp [returned, hpc] at hret

/-- **FIFO delivery without overwriting.** For every capacity that `init` accepts and every
interleaving of pushes with pops and peeks, counter wrap included: the popped values are a prefix
of the accepted ones; the producer never writes a slot that holds an unconsumed element; `push`
returns full only at a load of `head_` that sees `capacity` unconsumed elements; `pop` returns
empty only at a load of `tail_` that sees none. The last part says what holding an element means:
the slot contains it, unless the consumer is just taking it out. -/
theorem fifo_of_not_overwriting {capacity : BitVec w} {policy : SpscPolicy}
    (hinit : init true capacity policy = .ok cfg) (hpol : policy ≠ .overwriteOnFull)
    {memory : ℕ → V} {labels : List (Label V)}
    (hrun : Transition.run (step cfg destroy) (initial w memory) labels = some s) :
    popped s.trace <+: accepted s.trace ∧
    (∀ n, writtenSlot cfg s = some n → ¬ HoldsUnconsumed cfg s n) ∧
    (∀ a elem, returned cfg s a = some (.push elem .full) →
      (accepted s.trace).length = (popped s.trace).length + capacity.toNat) ∧
    (∀ a elem, returned cfg s a = some (.pop elem .empty) →
      (accepted s.trace).length = (popped s.trace).length) ∧
    (∀ i, Unconsumed s i → (popped s.trace).length + s.consumer.vacated ≤ i →
      (accepted s.trace)[i]? = some (s.slots (i % capacity.toNat))) := by
  obtain ⟨rfl, rfl⟩ := init_eq_ok hinit
  have hover : cfg.queuePolicy.overwrites = false := by
    cases hq : cfg.queuePolicy with
    | none => rfl
    | dropOnFull => rfl
    | overwriteOnFull => exact absurd hq hpol
  have h := fifoInv_run hover hrun
  exact ⟨h.order, fun _ => h.writtenSlot_not_unconsumed, fun _ _ => h.full_exact,
    fun _ _ => h.empty_exact, fun i hi hvac => h.stored i hvac hi.2⟩

/-- One push and one pop on a queue of capacity two, interleaved step by step. -/
theorem fifo_of_not_overwriting_two :
    ∃ s : State 64 ℕ,
      Transition.run (step (twoSlots .none) id) (initial 64 fun _ => 0)
        [.push (some 7), .pop true, .producer, .producer, .producer, .consumer, .consumer,
          .consumer, .consumer] = some s ∧
      popped s.trace = [7] ∧ popped s.trace <+: accepted s.trace := by
  obtain ⟨s, hs, hpop⟩ := Transition.exists_run_eq (step (twoSlots .none) id)
    (initial 64 fun _ => 0) [.push (some 7), .pop true, .producer, .producer, .producer,
      .consumer, .consumer, .consumer, .consumer] (fun s => popped s.trace) (b := [7]) (by decide)
  exact ⟨s, hs, hpop, (fifo_of_not_overwriting (init_twoSlots .none) (by decide) hs).1⟩

end SpscQueue

end Memkit
