import Memkit.Concurrency.SpscQueue

/-! # The SPSC queue under `overwrite_on_full`

In this policy the producer stores the consumer's counter too. A producer that acts on a stale
`head_`, or a consumer whose slot is overwritten between its loads and its read, can deliver an
element twice, out of order, or move `head_` backwards; `overwrite_not_in_order` is such a run.
`Undisturbed` names the steps at which this happens, and `overwrite_in_order` shows that a run
without them delivers a subsequence of the pushed values. -/

namespace Memkit

namespace SpscQueue

variable {w : ℕ} {V : Type*}

/-! ## A run that delivers an element twice -/

/-- `push v` by a producer that nobody interrupts, below capacity. -/
def pushAlone (v : V) : List (Label V) := [.push (some v), .producer, .producer, .producer]

/-- `push v` by a producer that nobody interrupts, on a full queue. -/
def overwriteAlone (v : V) : List (Label V) :=
  [.push (some v), .producer, .producer, .producer, .producer, .producer]

/-- `pop` by a consumer that nobody interrupts. -/
def popAlone : List (Label V) := [.pop true, .consumer, .consumer, .consumer, .consumer]

/-- The consumer is overtaken between its loads and its slot read: it delivers 3, then 2, then 3
again. -/
def overtakenConsumer : List (Label ℕ) :=
  pushAlone 1 ++ pushAlone 2 ++ [.pop true, .consumer] ++ overwriteAlone 3 ++
    [.consumer, .consumer, .consumer] ++ popAlone ++ popAlone

/-- The producer is overtaken between its load of `head_` and its store: the two pops in between
move `head_` to 2 and the store takes it back to 1. -/
def overtakenProducer : List (Label ℕ) :=
  pushAlone 1 ++ pushAlone 2 ++ [.push (some 3), .producer] ++ popAlone ++ popAlone ++
    [.producer, .producer]

/-- **Overwriting is not in order**: on a queue of capacity two there is a run whose popped values
are no subsequence of the pushed ones, and one in which a producer step takes the consumer's
counter from 2 back to 1. -/
theorem overwrite_not_in_order :
    (∃ s, Transition.run (step (twoSlots .overwriteOnFull) id) (initial 64 fun _ => 0)
        overtakenConsumer = some s ∧
      popped s.trace = [3, 2, 3] ∧ accepted s.trace = [1, 2, 3] ∧
      ¬ (popped s.trace).Sublist (accepted s.trace)) ∧
    (∃ s t, Transition.run (step (twoSlots .overwriteOnFull) id) (initial 64 fun _ => 0)
        overtakenProducer = some s ∧
      step (twoSlots .overwriteOnFull) id s .producer = some t ∧ s.head = 2 ∧ t.head = 1) := by
  constructor
  · obtain ⟨s, hs, hobs⟩ := Transition.exists_run_eq (step (twoSlots .overwriteOnFull) id)
      (initial 64 fun _ => 0) overtakenConsumer (fun s => (popped s.trace, accepted s.trace))
      (b := ([3, 2, 3], [1, 2, 3])) (by decide)
    obtain ⟨hpop, hacc⟩ := Prod.mk.inj hobs
    exact ⟨s, hs, hpop, hacc, by rw [hpop, hacc]; decide⟩
  · obtain ⟨t, ht, hhead⟩ := Transition.exists_run_eq (step (twoSlots .overwriteOnFull) id)
      (initial 64 fun _ => 0) (overtakenProducer ++ [.producer]) (fun s => s.head) (b := 1)
      (by decide)
    obtain ⟨s, hs, hst⟩ := Transition.run_concat.mp ht
    have hold : (Transition.run (step (twoSlots .overwriteOnFull) id) (initial 64 fun _ => 0)
        overtakenProducer).map (fun s => s.head) = some 2 := by decide
    rw [hs] at hold
    exact ⟨s, t, hs, hst, Option.some.inj hold, hhead⟩

/-! ## The steps that go wrong -/

/-- The producer has already destroyed or overwritten the slot of counter value `index`. -/
def ProducerPc.Spoils (destroy : V → V) (pc : ProducerPc w V) (index : BitVec w) : Prop :=
  match pc with
  | .overwriteWrite _ _ head => head = index ∧ ¬ ∀ x, destroy x = x
  | .overwriteHead _ _ head => head = index
  | _ => False

/-- The consumer has already destroyed the slot of counter value `index`. -/
def ConsumerPc.Spoils (pc : ConsumerPc w V) (index : BitVec w) : Prop :=
  match pc with
  | .popStore head _ => head = index
  | _ => False

/-- The slot that a pop which loaded `head` is about to access still holds the oldest element. -/
def SlotFresh (destroy : V → V) (s : State w V) (head : BitVec w) : Prop :=
  s.head = head ∧ ¬ s.producer.Spoils destroy head

/-- The step does not act on an overtaken snapshot: a pop accesses a slot that still holds the
element it loaded `head_` for (its destroy may be late if destroying is a no-op), and whoever
stores `head_` finds it at its own snapshot or one past it. -/
def Undisturbed (destroy : V → V) (s : State w V) : Label V → Prop
  | .producer =>
    match s.producer with
    | .overwriteHead _ _ head => s.head = head ∨ s.head = head + 1
    | _ => True
  | .consumer =>
    match s.consumer with
    | .popRead head => SlotFresh destroy s head
    | .popDestroy head out =>
      SlotFresh destroy s head ∨ (out.isSome = true ∧ ∀ x, destroy x = x)
    | .popStore head _ => s.head = head ∨ s.head = head + 1
    | _ => True
  | _ => True

instance ProducerPc.decidableSpoils (destroy : V → V) [Decidable (∀ x, destroy x = x)] :
    ∀ (pc : ProducerPc w V) (index : BitVec w), Decidable (pc.Spoils destroy index)
  | .overwriteWrite _ _ head, index =>
    inferInstanceAs (Decidable (head = index ∧ ¬ ∀ x, destroy x = x))
  | .overwriteHead _ _ head, index => inferInstanceAs (Decidable (head = index))
  | .idle, _ | .loadHead _ _, _ | .write _ _, _ | .storeTail _ _, _ | .overwriteDestroy _ _ _, _
  | .overwriteTail _ _, _ => isFalse id

instance decidableUndisturbed (destroy : V → V) [Decidable (∀ x, destroy x = x)]
    (s : State w V) : ∀ a, Decidable (Undisturbed destroy s a)
  | .producer => by unfold Undisturbed; cases s.producer <;> infer_instance
  | .consumer => by unfold Undisturbed SlotFresh; cases s.consumer <;> infer_instance
  | .push _ | .pop _ | .peek _ => isTrue trivial

/-! ## The invariant of undisturbed runs

`H` is the exact number of elements that have left the queue, popped or overwritten. -/

/-- What the producer's snapshots say; an overwriting producer loaded `head_` at some count
`g ≤ H` with the queue full. -/
def OverwriteProducerOk (cfg : Config w) (tail : BitVec w) (slots : ℕ → V) (acc : List V)
    (H : ℕ) : ProducerPc w V → Prop
  | .idle => True
  | .loadHead _ t => t = tail
  | .write _ t => t = tail ∧ acc.length < H + cfg.cap
  | .storeTail v t => t = tail ∧ acc.length < H + cfg.cap ∧ slots (acc.length % cfg.cap) = v
  | .overwriteDestroy _ t h =>
    t = tail ∧ ∃ g ≤ H, h = BitVec.ofNat w g ∧ acc.length = g + cfg.cap
  | .overwriteWrite _ t h =>
    t = tail ∧ ∃ g ≤ H, h = BitVec.ofNat w g ∧ acc.length = g + cfg.cap
  | .overwriteHead v t h =>
    t = tail ∧ slots (acc.length % cfg.cap) = v ∧
      ∃ g ≤ H, h = BitVec.ofNat w g ∧ acc.length = g + cfg.cap
  | .overwriteTail v t => t = tail ∧ acc.length < H + cfg.cap ∧ slots (acc.length % cfg.cap) = v

/-- What the consumer's snapshots say; a pop that has read its element read it at some count
`g ≤ H`, in push order. -/
def OverwriteConsumerOk (head : BitVec w) (acc pop : List V) (H : ℕ) : ConsumerPc w V → Prop
  | .popLoadTail _ h => h = head ∨ H < acc.length
  | .popRead _ => H < acc.length
  | .popDestroy h out => H < acc.length ∧
    ∀ v ∈ out, ∃ g ≤ H, h = BitVec.ofNat w g ∧ (pop ++ [v]).Sublist (acc.take (g + 1))
  | .popStore h v => H < acc.length ∧
    ∃ g ≤ H, h = BitVec.ofNat w g ∧ (pop ++ [v]).Sublist (acc.take (g + 1))
  | _ => True

/-- The invariant of undisturbed runs under `overwrite_on_full`. -/
structure OverwriteInv (cfg : Config w) (destroy : V → V) (s : State w V) (H : ℕ) : Prop where
  head_eq : s.head = BitVec.ofNat w H
  tail_eq : s.tail = BitVec.ofNat w (accepted s.trace).length
  le : H ≤ (accepted s.trace).length
  room : (accepted s.trace).length ≤ H + cfg.cap
  stored : ∀ i, H ≤ i → i < (accepted s.trace).length →
    ¬ s.producer.Spoils destroy (BitVec.ofNat w i) → ¬ s.consumer.Spoils (BitVec.ofNat w i) →
    (accepted s.trace)[i]? = some (s.slots (i % cfg.cap))
  producer : OverwriteProducerOk cfg s.tail s.slots (accepted s.trace) H s.producer
  delivered : (popped s.trace).Sublist ((accepted s.trace).take H)
  consumer : OverwriteConsumerOk s.head (accepted s.trace) (popped s.trace) H s.consumer

variable {cfg : Config w} {destroy : V → V} {s t : State w V} {H : ℕ}

theorem overwriteInv_initial (cfg : Config w) (destroy : V → V) (memory : ℕ → V) :
    OverwriteInv cfg destroy (initial w memory) 0 where
  head_eq := rfl
  tail_eq := rfl
  le := Nat.le_refl _
  room := by simp [initial]
  stored := by
    intro i _ hi
    simp [initial] at hi
  producer := trivial
  delivered := List.nil_sublist _
  consumer := trivial

namespace OverwriteInv

/-- The fullness test of `push` is exact. -/
theorem full_iff (h : OverwriteInv cfg destroy s H) :
    cfg.capacity ≤ s.tail - s.head ↔ (accepted s.trace).length = H + cfg.cap := by
  have hcap := cfg.cap_lt
  have hroom := h.room
  have hle := h.le
  rw [BitVec.le_def, h.tail_eq, h.head_eq, WrapCounter.toNat_sub hle (by omega)]
  change cfg.cap ≤ _ ↔ _
  omega

/-- A head snapshot that equals `tail_` while it is current means an empty queue. -/
theorem lt_of_ne (h : OverwriteInv cfg destroy s H) (hne : s.head ≠ s.tail) :
    H < (accepted s.trace).length := by
  refine lt_of_le_of_ne h.le fun heq => hne ?_
  rw [h.head_eq, h.tail_eq, ← heq]

theorem slotIndex_head (h : OverwriteInv cfg destroy s H) :
    slotIndex cfg s.head = H % cfg.cap := by
  rw [h.head_eq, cfg.slotIndex_ofNat]

theorem slotIndex_tail (h : OverwriteInv cfg destroy s H) :
    slotIndex cfg s.tail = (accepted s.trace).length % cfg.cap := by
  rw [h.tail_eq, cfg.slotIndex_ofNat]

/-- A full queue's newest element goes to the slot of the snapshot it was found full at. -/
theorem slotIndex_full {g : ℕ} {acc : List V} (hfull : acc.length = g + cfg.cap) :
    slotIndex cfg (BitVec.ofNat w g) = acc.length % cfg.cap := by
  rw [cfg.slotIndex_ofNat, hfull, Nat.add_mod_right]

/-- While the oldest slot is fresh and the queue not empty, the slot holds the oldest element. -/
theorem oldest (h : OverwriteInv cfg destroy s H) {head : BitVec w}
    (hfresh : SlotFresh destroy s head) (hlt : H < (accepted s.trace).length)
    (hcons : ¬ s.consumer.Spoils head) :
    head = BitVec.ofNat w H ∧
      (accepted s.trace)[H]? = some (s.slots (slotIndex cfg head)) := by
  obtain ⟨rfl, hspoil⟩ := hfresh
  have hslot := h.slotIndex_head
  rw [h.head_eq] at hspoil hcons hslot ⊢
  exact ⟨rfl, by rw [hslot]; exact h.stored H le_rfl hlt hspoil hcons⟩

end OverwriteInv

/-- Taking the element at position `H` extends what was delivered from before it. -/
theorem sublist_take_succ {acc pop : List V} {n : ℕ} {v : V} (hsub : pop.Sublist (acc.take n))
    (hv : acc[n]? = some v) : (pop ++ [v]).Sublist (acc.take (n + 1)) := by
  rw [List.take_add_one, hv]
  exact hsub.append (List.Sublist.refl _)

/-- What was delivered from the first `n` values stays so when a value is pushed. -/
theorem sublist_take_append {acc pop : List V} {n : ℕ} (v : V)
    (hsub : pop.Sublist (acc.take n)) : pop.Sublist ((acc ++ [v]).take n) :=
  hsub.trans ((List.prefix_append acc [v]).take n).sublist

/-- A consumer's snapshots stay right when the producer publishes an element. -/
theorem OverwriteConsumerOk.append {head : BitVec w} {acc pop : List V} {pc : ConsumerPc w V}
    (h : OverwriteConsumerOk head acc pop H pc) (v : V) :
    OverwriteConsumerOk head (acc ++ [v]) pop H pc := by
  have hlen : (acc ++ [v]).length = acc.length + 1 := by simp
  cases pc with
  | popLoadTail hasOut head' => exact h.imp_right fun hlt => by omega
  | popRead head' =>
    have hlt : H < acc.length := h
    exact lt_of_lt_of_le hlt (by omega)
  | popDestroy head' out =>
    refine ⟨by have := h.1; omega, fun x hx => ?_⟩
    obtain ⟨g, hg, hhead, hsub⟩ := h.2 x hx
    exact ⟨g, hg, hhead, sublist_take_append v hsub⟩
  | popStore head' elem =>
    obtain ⟨hlt, g, hg, hhead, hsub⟩ := h
    exact ⟨by omega, g, hg, hhead, sublist_take_append v hsub⟩
  | _ => trivial

/-! ## One step of the producer -/

namespace OverwriteInv

/-- Publishing: `tail_` moves past an element that is already in its slot. -/
theorem publish (h : OverwriteInv cfg destroy s H) {v : V} {pc : ProducerPc w V}
    (hpc : s.producer = pc) (hquiet : ∀ i, ¬ pc.Spoils destroy i)
    (hlt : (accepted s.trace).length < H + cfg.cap)
    (hslot : s.slots ((accepted s.trace).length % cfg.cap) = v) :
    OverwriteInv cfg destroy
      (({ s with tail := s.tail + 1, producer := .idle } : State w V).log (.push (some v) .ok))
      H := by
  have hacc : accepted (s.trace ++ [.push (some v) .ok]) = accepted s.trace ++ [v] := by
    simp [Event.pushed?]
  have hpop : popped (s.trace ++ [.push (some v) .ok]) = popped s.trace := by
    simp [Event.popped?]
  have hle := h.le
  refine ⟨h.head_eq, ?_, ?_, ?_, ?_, trivial, ?_, ?_⟩ <;>
    simp only [State.log, hacc, hpop, List.length_append, List.length_singleton]
  · rw [h.tail_eq, WrapCounter.ofNat_succ]
  · omega
  · omega
  · intro i hi hlen _ hcons
    rcases Nat.lt_or_ge i (accepted s.trace).length with hold | hnew
    · rw [List.getElem?_append_left hold]
      exact h.stored i hi hold (hpc ▸ hquiet _) hcons
    · obtain rfl : i = (accepted s.trace).length := by omega
      rw [List.getElem?_concat_length, hslot]
  · exact sublist_take_append v h.delivered
  · exact h.consumer.append v

/-- Destroying or overwriting the slot of a full queue's snapshot spoils only that position. -/
theorem spoil (h : OverwriteInv cfg destroy s H) {g : ℕ} {x : V} {pc : ProducerPc w V}
    (hfull : (accepted s.trace).length = g + cfg.cap) (hle : g ≤ H)
    (hold : ∀ i, s.producer.Spoils destroy i → pc.Spoils destroy i)
    (hsame : ¬ pc.Spoils destroy (BitVec.ofNat w g) →
      x = s.slots (slotIndex cfg (BitVec.ofNat w g)))
    (hpc : OverwriteProducerOk cfg s.tail
      (Function.update s.slots (slotIndex cfg (BitVec.ofNat w g)) x) (accepted s.trace) H pc) :
    OverwriteInv cfg destroy
      { s.setSlot (slotIndex cfg (BitVec.ofNat w g)) x with producer := pc } H := by
  refine ⟨h.head_eq, h.tail_eq, h.le, h.room, ?_, hpc, h.delivered, h.consumer⟩
  intro i hi hlen hprod hcons
  simp only [State.setSlot] at hlen hprod hcons ⊢
  have hstored := h.stored i hi hlen (fun hs => hprod (hold _ hs)) hcons
  rcases Nat.eq_or_lt_of_le (le_trans hle hi) with rfl | hlt
  · rw [hstored, hsame hprod, Function.update_eq_self]
  · have hne : i % cfg.cap ≠ slotIndex cfg (BitVec.ofNat w g) := by
      rw [cfg.slotIndex_ofNat]
      exact (cfg.slot_ne hlt (by omega)).symm
    rw [Function.update_of_ne hne]
    exact hstored

/-- The producer's store of `head_`, when it finds `head_` at its snapshot or one past it. -/
theorem drop_oldest (h : OverwriteInv cfg destroy s H) {g : ℕ} {v : V} {tail : BitVec w}
    (hpc : s.producer = .overwriteHead v tail (BitVec.ofNat w g))
    (hfull : (accepted s.trace).length = g + cfg.cap) (hle : g ≤ H)
    (hslot : s.slots ((accepted s.trace).length % cfg.cap) = v)
    (hsafe : s.head = BitVec.ofNat w g ∨ s.head = BitVec.ofNat w g + 1) :
    OverwriteInv cfg destroy
      { s with head := BitVec.ofNat w g + 1, producer := .overwriteTail v s.tail } (g + 1) := by
  have hcap := cfg.cap_ge
  have hH : H ≤ g + 1 := by
    have hHle := h.le
    rw [WrapCounter.ofNat_succ, h.head_eq] at hsafe
    by_contra hgt
    rcases hsafe with heq | heq
    · exact cfg.ofNat_ne (show g < H by omega) (by omega) heq.symm
    · exact cfg.ofNat_ne (show g + 1 < H by omega) (by omega) heq.symm
  have hne : g + 1 < (accepted s.trace).length := by omega
  have hroom : (accepted s.trace).length < g + 1 + cfg.cap := by omega
  refine ⟨WrapCounter.ofNat_succ g, h.tail_eq, hne.le, hroom.le, ?_, ⟨rfl, hroom, hslot⟩, ?_, ?_⟩
  · intro i hi hlen _ hcons
    have hlen' : i < (accepted s.trace).length := hlen
    refine h.stored i (by omega) hlen ?_ hcons
    rw [hpc]
    exact cfg.ofNat_ne (show g < i by omega) (by omega)
  · exact h.delivered.trans (List.take_sublist_take_left hH)
  · have hcons := h.consumer
    cases hc : s.consumer with
    | popLoadTail hasOut head => exact .inr hne
    | popRead head => exact hne
    | popDestroy head out =>
      rw [hc] at hcons
      refine ⟨hne, fun x hx => ?_⟩
      obtain ⟨g', hg', hrest⟩ := hcons.2 x hx
      exact ⟨g', by omega, hrest⟩
    | popStore head x =>
      rw [hc] at hcons
      obtain ⟨-, g', hg', hrest⟩ := hcons
      exact ⟨hne, g', by omega, hrest⟩
    | _ => trivial

/-- An undisturbed producer step keeps the invariant, with `H` not decreasing. -/
theorem keep_producer (hpol : cfg.queuePolicy.overwrites = true)
    (h : OverwriteInv cfg destroy s H) (hsafe : Undisturbed destroy s .producer)
    (hstep : producerStep cfg destroy s = some t) : ∃ H', OverwriteInv cfg destroy t H' := by
  have hprod := h.producer
  have hstored := h.stored
  simp only [Undisturbed] at hsafe
  -- the tail is the producer's own; what it does to the head is bounded by the condition
  cases producerStepsTo hstep with
  | @overwrite v tail hpc hfull _ =>
    rw [hpc] at hprod hstored
    obtain rfl : tail = s.tail := hprod
    exact ⟨H, h.head_eq, h.tail_eq, h.le, h.room, hstored,
      ⟨rfl, H, le_rfl, h.head_eq, h.full_iff.mp hfull⟩, h.delivered, h.consumer⟩
  | full _ _ hnot => cases hnot.symm.trans hpol
  | @room v tail hpc hroom =>
    rw [hpc] at hprod hstored
    obtain rfl : tail = s.tail := hprod
    exact ⟨H, h.head_eq, h.tail_eq, h.le, h.room, hstored,
      ⟨rfl, lt_of_le_of_ne h.room fun heq => hroom (h.full_iff.mpr heq)⟩, h.delivered, h.consumer⟩
  | @write v tail hpc =>
    rw [hpc] at hprod hstored
    obtain ⟨rfl, hlt⟩ := hprod
    refine ⟨H, h.head_eq, h.tail_eq, h.le, h.room, ?_, ⟨rfl, hlt, ?_⟩, h.delivered, h.consumer⟩
    · intro i hi hlen hspoil hcons
      -- there is room, so that the slot of the tail holds none of the elements
      have hne : i % cfg.cap ≠ slotIndex cfg s.tail := by
        rw [h.slotIndex_tail]
        exact cfg.slot_ne hlen (lt_of_lt_of_le hlt (Nat.add_le_add_right hi _))
      simp only [State.setSlot, Function.update_of_ne hne]
      exact hstored i hi hlen hspoil hcons
    · simp only [State.setSlot, h.slotIndex_tail, Function.update_self]
  | @storeTail v tail hpc =>
    rw [hpc] at hprod
    obtain ⟨rfl, hlt, hslot⟩ := hprod
    exact ⟨H, h.publish hpc (fun _ => id) hlt hslot⟩
  -- from here to the store of `head_`, the slot of the oldest element is spoiled
  | @overwriteDestroy v tail head hpc =>
    rw [hpc] at hprod
    obtain ⟨rfl, g, hg, rfl, hfull⟩ := hprod
    refine ⟨H, h.spoil hfull hg (by simp [hpc, ProducerPc.Spoils]) ?_ ⟨rfl, g, hg, rfl, hfull⟩⟩
    intro hquiet
    simp only [ProducerPc.Spoils, true_and, not_not] at hquiet
    exact hquiet _
  | @overwriteWrite v tail head hpc =>
    rw [hpc] at hprod
    obtain ⟨rfl, g, hg, rfl, hfull⟩ := hprod
    refine ⟨H, h.spoil hfull hg ?_ (fun hquiet => absurd rfl hquiet)
      ⟨rfl, ?_, g, hg, rfl, hfull⟩⟩
    · intro i hi
      rw [hpc] at hi
      exact hi.1
    · rw [slotIndex_full hfull, Function.update_self]
  -- the one step that moves `H`: the oldest element is given up
  | @overwriteHead v tail head hpc =>
    rw [hpc] at hprod hsafe
    obtain ⟨rfl, hslot, g, hg, rfl, hfull⟩ := hprod
    exact ⟨g + 1, h.drop_oldest hpc hfull hg hslot hsafe⟩
  | @overwriteTail v tail hpc =>
    rw [hpc] at hprod
    obtain ⟨rfl, hlt, hslot⟩ := hprod
    exact ⟨H, h.publish hpc (fun _ => id) hlt hslot⟩

/-! ## One step of the consumer -/

/-- A consumer that goes on, or returns without having popped, keeps the invariant. -/
theorem consumer_moves (h : OverwriteInv cfg destroy s H) {pc : ConsumerPc w V}
    {trace : List (Event V)} (hacc : accepted trace = accepted s.trace)
    (hpop : popped trace = popped s.trace) (hquiet : ∀ i, ¬ s.consumer.Spoils i)
    (hpc : OverwriteConsumerOk s.head (accepted s.trace) (popped s.trace) H pc) :
    OverwriteInv cfg destroy { s with consumer := pc, trace := trace } H := by
  refine ⟨h.head_eq, ?_, ?_, ?_, ?_, ?_, ?_, ?_⟩ <;> simp only [hacc, hpop]
  · exact h.tail_eq
  · exact h.le
  · exact h.room
  · exact fun i hi hlen hprod _ => h.stored i hi hlen hprod (hquiet _)
  · exact h.producer
  · exact h.delivered
  · exact hpc

/-- Destroying the oldest element leaves the producer's slot alone. -/
theorem vacate (h : OverwriteInv cfg destroy s H) {x : V} {head : BitVec w}
    (hfresh : SlotFresh destroy s head) (hlt : H < (accepted s.trace).length)
    (hquiet : ∀ i, ¬ s.consumer.Spoils i) {v : V}
    (hpc : OverwriteConsumerOk s.head (accepted s.trace) (popped s.trace) H (.popStore head v)) :
    OverwriteInv cfg destroy
      { s.setSlot (slotIndex cfg head) x with consumer := .popStore head v } H := by
  obtain ⟨rfl, hspoil⟩ := hfresh
  have hroom := h.room
  refine ⟨h.head_eq, h.tail_eq, h.le, hroom, ?_, ?_, h.delivered, hpc⟩
  · intro i hi hlen hprod hcons
    have hlen' : i < (accepted s.trace).length := hlen
    have hne : i % cfg.cap ≠ slotIndex cfg s.head := by
      rw [h.slotIndex_head]
      rcases Nat.eq_or_lt_of_le hi with rfl | hgt
      · exact absurd h.head_eq hcons
      · exact (cfg.slot_ne hgt (by omega)).symm
    simp only [State.setSlot, Function.update_of_ne hne]
    exact h.stored i hi hlen hprod (hquiet _)
  · have hprod := h.producer
    -- the producer's slot is that of the next tail, a full lap past any position but `H - cap`
    have hframe : (accepted s.trace).length < H + cfg.cap →
        Function.update s.slots (slotIndex cfg s.head) x ((accepted s.trace).length % cfg.cap) =
          s.slots ((accepted s.trace).length % cfg.cap) := by
      intro hroom'
      rw [h.slotIndex_head]
      exact Function.update_of_ne (cfg.slot_ne hlt hroom').symm _ _
    change OverwriteProducerOk cfg s.tail (Function.update s.slots (slotIndex cfg s.head) x)
      (accepted s.trace) H s.producer
    cases hp : s.producer with
    | storeTail v' tail =>
      rw [hp] at hprod
      exact ⟨hprod.1, hprod.2.1, by rw [hframe hprod.2.1]; exact hprod.2.2⟩
    | overwriteTail v' tail =>
      rw [hp] at hprod
      exact ⟨hprod.1, hprod.2.1, by rw [hframe hprod.2.1]; exact hprod.2.2⟩
    | overwriteHead v' tail head' =>
      rw [hp] at hprod hspoil
      obtain ⟨htail, hslot, g, hg, rfl, hfull⟩ := hprod
      have hne : g ≠ H := by
        rintro rfl
        exact hspoil h.head_eq.symm
      exact ⟨htail, by rw [hframe (by omega)]; exact hslot, g, hg, rfl, hfull⟩
    | _ =>
      rw [hp] at hprod
      exact hprod

/-- The producer's snapshots stay right when `head_` advances over the oldest element. -/
theorem producer_mono {tail : BitVec w} {slots : ℕ → V} {acc : List V} {pc : ProducerPc w V}
    (h : OverwriteProducerOk cfg tail slots acc H pc) :
    OverwriteProducerOk cfg tail slots acc (H + 1) pc := by
  cases pc with
  | idle => trivial
  | loadHead v t => exact h
  | write v t => exact ⟨h.1, lt_of_lt_of_le h.2 (by omega)⟩
  | storeTail v t => exact ⟨h.1, lt_of_lt_of_le h.2.1 (by omega), h.2.2⟩
  | overwriteDestroy v t head =>
    obtain ⟨ht, g, hg, hrest⟩ := h
    exact ⟨ht, g, by omega, hrest⟩
  | overwriteWrite v t head =>
    obtain ⟨ht, g, hg, hrest⟩ := h
    exact ⟨ht, g, by omega, hrest⟩
  | overwriteHead v t head =>
    obtain ⟨ht, hslot, g, hg, hrest⟩ := h
    exact ⟨ht, hslot, g, by omega, hrest⟩
  | overwriteTail v t => exact ⟨h.1, lt_of_lt_of_le h.2.1 (by omega), h.2.2⟩

/-- The consumer's store of `head_`, when it finds `head_` at its snapshot or one past it. -/
theorem advance (h : OverwriteInv cfg destroy s H) {head : BitVec w} {v : V}
    (hpc : s.consumer = .popStore head v) (hsafe : s.head = head ∨ s.head = head + 1) :
    ∃ H', OverwriteInv cfg destroy
      (({ s with head := head + 1, consumer := .idle } : State w V).log (.pop (some v) .ok)) H' := by
  have hcons := h.consumer
  rw [hpc] at hcons
  obtain ⟨hlt, g, hg, rfl, hsub⟩ := hcons
  have hacc : accepted (s.trace ++ [.pop (some v) .ok]) = accepted s.trace := by
    simp [Event.pushed?]
  have hpop : popped (s.trace ++ [.pop (some v) .ok]) = popped s.trace ++ [v] := by
    simp [Event.popped?]
  have hroom := h.room
  have hcap := cfg.cap_ge
  rcases hsafe with heq | heq
  · -- nobody else moved `head_`: one more element leaves the queue
    rw [h.head_eq] at heq
    refine ⟨H + 1, ?_, ?_, ?_, ?_, ?_, ?_, ?_, trivial⟩ <;> simp only [State.log, hacc, hpop]
    · rw [← heq, WrapCounter.ofNat_succ]
    · exact h.tail_eq
    · exact hlt
    · omega
    · intro i hi hlen hprod _
      refine h.stored i (by omega) hlen hprod ?_
      rw [hpc]
      intro hi'
      exact cfg.ofNat_ne (show H < i by omega) (by omega) (heq.trans hi')
    · exact producer_mono h.producer
    · exact hsub.trans (List.take_sublist_take_left (by omega))
  · -- the producer dropped this element meanwhile: the store changes nothing
    rw [WrapCounter.ofNat_succ, h.head_eq] at heq
    -- `head_` stands one past the snapshot, so that the snapshot was of an element before `H`
    have hgH : g + 1 ≤ H := by
      by_contra hgt
      obtain rfl : g = H := by omega
      exact cfg.ofNat_ne (Nat.lt_succ_self g) (by omega) heq
    refine ⟨H, ?_, ?_, ?_, ?_, ?_, ?_, ?_, trivial⟩ <;> simp only [State.log, hacc, hpop]
    · rw [WrapCounter.ofNat_succ, heq]
    · exact h.tail_eq
    · exact h.le
    · exact hroom
    · intro i hi hlen hprod _
      refine h.stored i hi hlen hprod ?_
      rw [hpc]
      intro hi'
      have hi' : BitVec.ofNat w g = BitVec.ofNat w i := hi'
      have hsucc : BitVec.ofNat w H = BitVec.ofNat w (i + 1) := by
        rw [heq, ← WrapCounter.ofNat_succ, ← WrapCounter.ofNat_succ, hi']
      exact cfg.ofNat_ne (show H < i + 1 by omega) (by omega) hsucc
    · exact h.producer
    · exact hsub.trans (List.take_sublist_take_left hgH)

/-- An undisturbed consumer step keeps the invariant, with `H` not decreasing. -/
theorem keep_consumer (h : OverwriteInv cfg destroy s H)
    (hsafe : Undisturbed destroy s .consumer)
    (hstep : consumerStep cfg destroy s = some t) : ∃ H', OverwriteInv cfg destroy t H' := by
  have hcons := h.consumer
  simp only [Undisturbed] at hsafe
  -- a slot is spoilt from the destruction of its element until `head_` moves on
  have hquiet : (∀ head out, s.consumer ≠ .popStore head out) → ∀ i, ¬ s.consumer.Spoils i := by
    intro hnot i hspoils
    cases hpc : s.consumer with
    | popStore head out => exact hnot head out hpc
    | _ =>
      rw [hpc] at hspoils
      exact hspoils
  cases consumerStepsTo hstep with
  | popEmpty hpc _ =>
    exact ⟨H, h.consumer_moves (by simp [Event.pushed?]) (by simp [Event.popped?])
      (hquiet (by simp [hpc])) trivial⟩
  | @popFound hasOut head hpc hne =>
    rw [hpc] at hcons
    have hlt : H < (accepted s.trace).length := by
      rcases hcons with rfl | hlt
      · exact h.lt_of_ne hne
      · exact hlt
    cases hasOut with
    | true => exact ⟨H, h.consumer_moves rfl rfl (hquiet (by simp [hpc])) hlt⟩
    | false => exact ⟨H, h.consumer_moves rfl rfl (hquiet (by simp [hpc])) ⟨hlt, by simp⟩⟩
  | @popRead head hpc =>
    rw [hpc] at hcons hsafe
    have hspares := hquiet (by simp [hpc])
    have hlt : H < (accepted s.trace).length := hcons
    obtain ⟨hhead, hold⟩ := h.oldest hsafe hlt (hspares _)
    refine ⟨H, h.consumer_moves rfl rfl hspares ⟨hlt, ?_⟩⟩
    rintro v hv
    obtain rfl : s.slots (slotIndex cfg head) = v := by simpa using hv
    exact ⟨H, le_rfl, hhead, sublist_take_succ h.delivered hold⟩
  | @popDestroy head out hpc =>
    rw [hpc] at hcons hsafe
    have hspares := hquiet (by simp [hpc])
    obtain ⟨hlt, hout⟩ := hcons
    rcases hsafe with hfresh | ⟨hsome, htriv⟩
    · obtain ⟨hhead, hold⟩ := h.oldest hfresh hlt (hspares _)
      refine ⟨H, h.vacate hfresh hlt hspares ⟨hlt, ?_⟩⟩
      cases out with
      | none => exact ⟨H, le_rfl, hhead, sublist_take_succ h.delivered hold⟩
      | some v => exact hout v rfl
    · -- destroying is a no-op, so the slots do not change
      obtain ⟨v, rfl⟩ := Option.isSome_iff_exists.mp hsome
      simp only [State.setSlot, htriv, Function.update_eq_self]
      exact ⟨H, h.consumer_moves rfl rfl hspares ⟨hlt, hout v rfl⟩⟩
  | popStore hpc =>
    rw [hpc] at hsafe
    exact h.advance hpc hsafe
  | peekEmpty hpc _ =>
    exact ⟨H, h.consumer_moves (by simp [Event.pushed?]) (by simp [Event.popped?])
      (hquiet (by simp [hpc])) trivial⟩
  | peekFound hpc _ => exact ⟨H, h.consumer_moves rfl rfl (hquiet (by simp [hpc])) trivial⟩
  | peekRead hpc =>
    exact ⟨H, h.consumer_moves (by simp [Event.pushed?]) (by simp [Event.popped?])
      (hquiet (by simp [hpc])) trivial⟩

/-- An undisturbed step keeps the invariant. -/
theorem keep_step (hpol : cfg.queuePolicy.overwrites = true) (h : OverwriteInv cfg destroy s H)
    {a : Label V} (hsafe : Undisturbed destroy s a) (hstep : step cfg destroy s a = some t) :
    ∃ H', OverwriteInv cfg destroy t H' := by
  cases a with
  | push elem =>
    -- starting a call moves one program counter; a null pointer is answered at once
    simp only [step, startPush] at hstep
    split at hstep
    · rename_i hidle
      cases hstep
      refine ⟨H, h.head_eq, h.tail_eq, h.le, h.room, ?_, rfl, h.delivered, h.consumer⟩
      have hstored := h.stored
      rw [hidle] at hstored
      exact hstored
    · cases hstep
      have hacc : accepted (s.trace ++ [.push none .nullPtr]) = accepted s.trace := by
        simp [Event.pushed?]
      have hpop : popped (s.trace ++ [.push none .nullPtr]) = popped s.trace := by
        simp [Event.popped?]
      refine ⟨H, h.head_eq, ?_, ?_, ?_, ?_, ?_, ?_, ?_⟩ <;> simp only [State.log, hacc, hpop]
      · exact h.tail_eq
      · exact h.le
      · exact h.room
      · exact h.stored
      · exact h.producer
      · exact h.delivered
      · exact h.consumer
    · cases hstep
  | producer => exact h.keep_producer hpol hsafe hstep
  | pop hasOut =>
    simp only [step, startPop] at hstep
    split at hstep
    · rename_i hidle
      cases hstep
      exact ⟨H, h.consumer_moves rfl rfl (by simp [hidle, ConsumerPc.Spoils]) (.inl rfl)⟩
    · cases hstep
  | peek hasOut =>
    simp only [step, startPeek] at hstep
    split at hstep
    · rename_i hidle
      cases hstep
      exact ⟨H, h.consumer_moves rfl rfl (by simp [hidle, ConsumerPc.Spoils]) trivial⟩
    · rename_i hidle
      cases hstep
      exact ⟨H, h.consumer_moves (by simp [Event.pushed?]) (by simp [Event.popped?])
        (by simp [hidle, ConsumerPc.Spoils]) (by rw [hidle]; trivial)⟩
    · cases hstep
  | consumer => exact h.keep_consumer hsafe hstep

end OverwriteInv

/-! ## Whole runs -/

/-- An undisturbed step leaves `head_` alone or advances it by one. -/
theorem head_of_undisturbed {a : Label V} (hsafe : Undisturbed destroy s a)
    (hstep : step cfg destroy s a = some t) : t.head = s.head ∨ t.head = s.head + 1 := by
  cases a with
  | push elem =>
    simp only [step, startPush] at hstep
    split at hstep <;> cases hstep <;> exact .inl rfl
  | producer =>
    simp only [Undisturbed] at hsafe
    cases producerStepsTo hstep with
    | overwriteHead hpc =>
      rw [hpc] at hsafe
      rcases hsafe with heq | heq
      · exact .inr (by rw [heq])
      · exact .inl heq.symm
    | _ => exact .inl rfl
  | pop hasOut =>
    simp only [step, startPop] at hstep
    split at hstep <;> cases hstep
    exact .inl rfl
  | peek hasOut =>
    simp only [step, startPeek] at hstep
    split at hstep <;> cases hstep <;> exact .inl rfl
  | consumer =>
    simp only [Undisturbed] at hsafe
    cases consumerStepsTo hstep with
    | popStore hpc =>
      rw [hpc] at hsafe
      rcases hsafe with heq | heq
      · exact .inr (by rw [heq]; rfl)
      · exact .inl heq.symm
    | _ => exact .inl rfl

/-- **Undisturbed overwriting is in order.** For every capacity that `init` accepts: in every run
whose steps are all undisturbed the popped values are a subsequence of the pushed ones, so none is
delivered twice or after a later one, and the next undisturbed step does not move `head_`
backwards. -/
theorem overwrite_in_order {capacity : BitVec w}
    (hinit : init true capacity .overwriteOnFull = .ok cfg) {memory : ℕ → V}
    {labels : List (Label V)}
    (hsafe : Transition.EveryStep (step cfg destroy) (Undisturbed destroy) (initial w memory)
      labels)
    (hrun : Transition.run (step cfg destroy) (initial w memory) labels = some s) :
    (popped s.trace).Sublist (accepted s.trace) ∧
    ∀ a t, Undisturbed destroy s a → step cfg destroy s a = some t →
      t.head = s.head ∨ t.head = s.head + 1 := by
  have hover : cfg.queuePolicy.overwrites = true := by
    rw [(init_eq_ok hinit).2]
    rfl
  obtain ⟨H, hinv⟩ : ∃ H, OverwriteInv cfg destroy s H :=
    hsafe.run_invariant (fun s => ∃ H, OverwriteInv cfg destroy s H)
      (fun _ _ _ hinv hgood hstep => hinv.elim fun _ h => h.keep_step hover hgood hstep)
      ⟨0, overwriteInv_initial cfg destroy memory⟩ hrun
  exact ⟨hinv.delivered.trans (List.take_sublist _ _), fun _ _ hgood => head_of_undisturbed hgood⟩

/-- A full queue of capacity two is overwritten once and then popped. -/
theorem overwrite_in_order_two :
    ∃ s : State 64 (Fin 4),
      Transition.run (step (twoSlots .overwriteOnFull) id) (initial 64 fun _ => 0)
        (pushAlone 1 ++ pushAlone 2 ++ overwriteAlone 3 ++ popAlone) = some s ∧
      popped s.trace = [2] ∧ (popped s.trace).Sublist (accepted s.trace) := by
  obtain ⟨s, hs, hpop⟩ := Transition.exists_run_eq (step (twoSlots .overwriteOnFull) id)
    (initial 64 fun _ => (0 : Fin 4)) (pushAlone 1 ++ pushAlone 2 ++ overwriteAlone 3 ++ popAlone)
    (fun s => popped s.trace) (b := [2]) (by decide)
  exact ⟨s, hs, hpop, (overwrite_in_order (init_twoSlots .overwriteOnFull) (by decide) hs).1⟩

end SpscQueue

end Memkit
