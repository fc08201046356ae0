import Memkit.Concurrency.MpscQueueTickets

/-! # Draining the MPSC queue

When all threads are idle, repeated pops should return what was pushed and not popped, in ticket
order, and `size` should count it.

* **`Drains`** — repeated pops return what remains, in order, and `size` counts it.
* **`Complete`** — every drawn ticket is published; `Inv.popAlone_next` says what one pop does then,
  `Inv.popsAlone` what any number of pops do.
* **`drains_iff_patient`** — a queue at rest drains exactly if no step of the run gave up a ticket:
  nobody fills the cell of a given up ticket, `size` counts it for ever, and the consumer cannot
  pass it. -/

namespace Memkit

namespace MpscQueue

variable {w : ℕ} {P V : Type*} {cfg : Config w} {destroy : V → V} {s t : State w P V}

/-! ## Draining a queue at rest -/

/-- Run the consumer on its own until its call returns, for at most `fuel` steps. -/
def consumerAlone (cfg : Config w) (destroy : V → V) : ℕ → State w P V → Option (State w P V)
  | 0, _ => none
  | fuel + 1, s =>
    match s.consumer with
    | .idle => some s
    | _ => (consumerStep cfg destroy s).bind (consumerAlone cfg destroy fuel)

/-- A whole `pop` while no other thread moves. Each round of its loop takes two steps at most. -/
def popAlone (cfg : Config w) (destroy : V → V) (s : State w P V) (hasOut : Bool)
    (maxSpins : ℕ) : Option (State w P V) :=
  (startPop s hasOut maxSpins).bind (consumerAlone cfg destroy (2 * maxSpins + 5))

/-- Repeated pops, each with its own arguments, while no other thread moves. -/
def popsAlone (cfg : Config w) (destroy : V → V) :
    List (Bool × ℕ) → State w P V → Option (State w P V)
  | [], s => some s
  | (hasOut, maxSpins) :: calls, s =>
    (popAlone cfg destroy s hasOut maxSpins).bind (popsAlone cfg destroy calls)

/-- The pushes that returned ok, in ticket order. -/
def inOrder (trace : List (Event w P V)) : List (Publication P V) :=
  (published trace).insertionSort fun b c => b.ticket ≤ c.ticket

/-- The elements whose push returned ok and that are not popped, in ticket order. -/
def remaining (trace : List (Event w P V)) : List V :=
  ((inOrder trace).drop (popped trace).length).map (·.elem)

/-- What `n` pops of a queue with the elements `vs` return: first these, then `empty`. -/
def drainEvents : List V → ℕ → List (Event w P V)
  | _, 0 => []
  | [], n + 1 => .pop none .empty :: drainEvents [] n
  | v :: vs, n + 1 => .pop (some v) .ok :: drainEvents vs n

/-- All threads are outside `push` and `pop`. -/
def AtRest (s : State w P V) : Prop := (∀ p, s.producers p = .idle) ∧ s.consumer = .idle

/-- **The queue drains**: `size` is the number of elements that remain, at most the capacity, and any
number of pops, with any arguments that allow a load, returns these elements and then `empty`. -/
structure Drains (cfg : Config w) (destroy : V → V) (s : State w P V) : Prop where
  size_eq : (size s).toNat = (remaining s.trace).length
  size_le : (size s).toNat ≤ cfg.cap
  pops : ∀ calls : List (Bool × ℕ), (∀ c ∈ calls, 1 ≤ c.2) → ∃ t,
    popsAlone cfg destroy calls s = some t ∧
      t.trace = s.trace ++ drainEvents (remaining s.trace) calls.length

/-! ## Draining a complete queue -/

/-- Every drawn ticket is published. -/
def Complete (s : State w P V) : Prop := ∀ k < drawn s.trace, ∃ b ∈ published s.trace, b.ticket = k

/-- At rest and with no ticket given up, every drawn ticket is published. -/
theorem Account.complete (h : Account s) (hrest : AtRest s) (hnone : abandoned s.trace = []) :
    Complete s := by
  intro k hk
  rcases h.all k hk with ⟨p, pos, hp, -⟩ | hpublished | hgone
  · rw [hrest.1 p] at hp
    cases hp
  · exact hpublished
  · rw [hnone] at hgone
    cases hgone

namespace Inv

/-- In a complete queue the published tickets are the drawn ones, in order. -/
theorem tickets_inOrder (h : Inv cfg s) (hcomplete : Complete s) :
    (inOrder s.trace).map (·.ticket) = List.range (drawn s.trace) := by
  have hperm := ((published s.trace).perm_insertionSort fun b c => b.ticket ≤ c.ticket).map
    (·.ticket)
  have hsorted : ((inOrder s.trace).map (·.ticket)).Pairwise (· ≤ ·) := by
    have : Std.Total fun b c : Publication P V => b.ticket ≤ c.ticket :=
      ⟨fun b c => le_total b.ticket c.ticket⟩
    have : IsTrans (Publication P V) fun b c => b.ticket ≤ c.ticket := ⟨fun b c d => le_trans⟩
    rw [List.pairwise_map]
    exact List.pairwise_insertionSort _ _
  have hrange : (List.range (drawn s.trace)).Pairwise (· ≤ ·) :=
    List.pairwise_lt_range.imp fun hlt => le_of_lt hlt
  refine List.Perm.eq_of_pairwise' hsorted hrange (hperm.trans ?_)
  rw [List.perm_ext_iff_of_nodup h.tickets_nodup List.nodup_range]
  intro k
  rw [List.mem_map, List.mem_range]
  constructor
  · rintro ⟨b, hb, rfl⟩
    exact h.drawn_lt b hb
  · intro hk
    obtain ⟨b, hb, hticket⟩ := hcomplete k hk
    exact ⟨b, hb, hticket⟩

/-- As many elements remain as tickets are drawn and not popped. -/
theorem length_remaining (h : Inv cfg s) (hcomplete : Complete s) :
    (remaining s.trace).length = drawn s.trace - (popped s.trace).length := by
  have hmap := congrArg List.length (h.tickets_inOrder hcomplete)
  rw [List.length_map, List.length_range] at hmap
  rw [remaining, List.length_map, List.length_drop, hmap]

/-- The first element that remains is that of the next ticket. -/
theorem remaining_eq_cons (h : Inv cfg s) (hcomplete : Complete s) {b : Publication P V}
    (hb : b ∈ published s.trace) (hticket : b.ticket = (popped s.trace).length) :
    remaining s.trace = b.elem :: (remaining s.trace).tail := by
  have htickets := h.tickets_inOrder hcomplete
  have hlt : (popped s.trace).length < drawn s.trace := hticket ▸ h.drawn_lt b hb
  have hbound : (popped s.trace).length < (inOrder s.trace).length := by
    have hmap := congrArg List.length htickets
    rw [List.length_map, List.length_range] at hmap
    omega
  have hget : (inOrder s.trace)[(popped s.trace).length] = b := by
    have hk := congrArg (fun l => l[(popped s.trace).length]?) htickets
    simp only [List.getElem?_map, List.getElem?_eq_getElem hbound, Option.map_some,
      List.getElem?_range hlt, Option.some.injEq] at hk
    have hmem : (inOrder s.trace)[(popped s.trace).length] ∈ published s.trace :=
      (List.mem_insertionSort _).mp (List.getElem_mem hbound)
    exact h.eq_of_ticket hmem hb (hk.trans hticket.symm)
  rw [remaining, List.drop_eq_getElem_cons hbound, hget]
  rfl

/-- The consumer on its own keeps the invariant and ends outside `pop`. -/
theorem consumerAlone {fuel : ℕ} (h : Inv cfg s)
    (hrun : consumerAlone cfg destroy fuel s = some t) :
    Inv cfg t ∧ t.consumer = .idle ∧ t.producers = s.producers ∧
      published t.trace = published s.trace ∧ drawn t.trace = drawn s.trace := by
  induction fuel generalizing s with
  | zero => cases hrun
  | succ fuel ih =>
    rw [MpscQueue.consumerAlone] at hrun
    split at hrun
    · rename_i hidle
      cases hrun
      exact ⟨h, hidle, rfl, rfl, rfl⟩
    · obtain ⟨u, hu, hrest⟩ := Option.bind_eq_some_iff.mp hrun
      have hmoves : ConsumerMoves cfg destroy s u := .inl hu
      obtain ⟨hpub, hdrawn⟩ := consumer_history hmoves
      obtain ⟨hinv, hidle, hproducers, hpub', hdrawn'⟩ := ih (h.consumerStep hu) hrest
      exact ⟨hinv, hidle, hproducers.trans (consumer_frame hmoves).1, hpub'.trans hpub,
        hdrawn'.trans hdrawn⟩

/-- A `pop` on its own keeps the invariant, and what is drawn and published. -/
theorem popAlone {hasOut : Bool} {maxSpins : ℕ} (h : Inv cfg s)
    (hrun : popAlone cfg destroy s hasOut maxSpins = some t) :
    Inv cfg t ∧ t.consumer = .idle ∧ t.producers = s.producers ∧
      published t.trace = published s.trace ∧ drawn t.trace = drawn s.trace := by
  obtain ⟨u, hu, hrest⟩ := Option.bind_eq_some_iff.mp hrun
  have hmoves : ConsumerMoves cfg destroy s u := .inr ⟨hasOut, maxSpins, hu⟩
  obtain ⟨hpub, hdrawn⟩ := consumer_history hmoves
  have hinv : Inv cfg u := by
    unfold startPop at hu
    split at hu
    · rename_i hidle
      cases hu
      exact h.popLoop h.dequeue_eq (by rw [hidle]; rfl) hasOut maxSpins
    · cases hu
  obtain ⟨hinv', hidle, hproducers, hpub', hdrawn'⟩ := hinv.consumerAlone hrest
  exact ⟨hinv', hidle, hproducers.trans (consumer_frame hmoves).1, hpub'.trans hpub,
    hdrawn'.trans hdrawn⟩

end Inv

/-- A pop of a published cell takes its element. -/
theorem popAlone_published (hidle : s.consumer = .idle) (hasOut : Bool) {maxSpins : ℕ}
    (hspins : 1 ≤ maxSpins) (hseq : s.seq (cfg.index s.dequeuePos) = s.dequeuePos + 1) :
    ∃ t, popAlone cfg destroy s hasOut maxSpins = some t ∧
      t.trace = s.trace ++ [.pop (some (s.data (cfg.index s.dequeuePos))) .ok] := by
  obtain ⟨more, rfl⟩ : ∃ more, maxSpins = more + 1 := ⟨maxSpins - 1, by omega⟩
  -- the steps are: load, read if there is an `out`, destroy, release
  cases hasOut with
  | true => simp [popAlone, startPop, hidle, popLoop, consumerAlone, consumerStep, hseq]
  | false => simp [popAlone, startPop, hidle, popLoop, consumerAlone, consumerStep, hseq]

/-- A pop of an empty queue finds it empty. -/
theorem popAlone_empty (hidle : s.consumer = .idle) (hasOut : Bool) {maxSpins : ℕ}
    (hspins : 1 ≤ maxSpins) (hseq : s.seq (cfg.index s.dequeuePos) = s.dequeuePos)
    (henqueue : s.enqueuePos = s.dequeuePos) :
    ∃ t, popAlone cfg destroy s hasOut maxSpins = some t ∧
      t.trace = s.trace ++ [.pop none .empty] := by
  obtain ⟨more, rfl⟩ : ∃ more, maxSpins = more + 1 := ⟨maxSpins - 1, by omega⟩
  -- a position differs from the next one, for the words are not empty
  have hw : w ≠ 0 := by
    rintro rfl
    have hcap := cfg.cap_ge
    have hcap' := cfg.cap_lt
    omega
  simp [popAlone, startPop, hidle, popLoop, consumerAlone, consumerStep, hseq, hw, henqueue]

/-- **One pop** of a complete queue returns the first element that remains, or finds the queue
empty, and leaves a complete queue with the rest. -/
theorem Inv.popAlone_next (h : Inv cfg s) (hidle : s.consumer = .idle) (hcomplete : Complete s)
    (hasOut : Bool) {maxSpins : ℕ} (hspins : 1 ≤ maxSpins) :
    ∃ t, MpscQueue.popAlone cfg destroy s hasOut maxSpins = some t ∧ Inv cfg t ∧
      t.consumer = .idle ∧ Complete t ∧ t.trace = s.trace ++ drainEvents (remaining s.trace) 1 ∧
      remaining t.trace = (remaining s.trace).tail := by
  have hcap := cfg.cap_ge
  have hindex : cfg.index s.dequeuePos = (popped s.trace).length % cfg.cap := by
    rw [h.dequeue_eq, cfg.index_ofNat]
  have hnext : s.dequeuePos + 1 = BitVec.ofNat w ((popped s.trace).length + 1) := by
    rw [h.dequeue_eq, WrapCounter.ofNat_succ]
  -- whatever the pop returns, the tickets drawn and published stay
  have hkeep : ∀ t, MpscQueue.popAlone cfg destroy s hasOut maxSpins = some t →
      Inv cfg t ∧ t.consumer = .idle ∧ Complete t ∧ inOrder t.trace = inOrder s.trace := by
    intro t hrun
    obtain ⟨hinv, hidle', -, hpub, hdrawn⟩ := h.popAlone hrun
    refine ⟨hinv, hidle', ?_, by rw [inOrder, hpub, inOrder]⟩
    intro k hk
    rw [hpub]
    exact hcomplete k (hdrawn ▸ hk)
  by_cases hpub : ∃ b ∈ published s.trace, b.ticket = (popped s.trace).length
  · obtain ⟨b, hb, hticket⟩ := hpub
    have hseq := h.cell_published b hb hticket.ge
    have hdata := h.stored b hb (by rw [hidle, hticket]; exact le_rfl)
    rw [hticket, ← hindex] at hseq hdata
    obtain ⟨t, hrun, htrace⟩ : ∃ t, MpscQueue.popAlone cfg destroy s hasOut maxSpins = some t ∧ _ :=
      popAlone_published hidle hasOut hspins (hseq.trans hnext.symm)
    obtain ⟨hinv, hidle', hcomplete', horder⟩ := hkeep t hrun
    have hcons := h.remaining_eq_cons hcomplete hb hticket
    refine ⟨t, hrun, hinv, hidle', hcomplete', ?_, ?_⟩
    · rw [htrace, hdata, hcons]
      rfl
    · rw [remaining, remaining, horder, htrace, popped_concat, ← List.map_tail, List.tail_drop]
      simp [Event.popped?]
  · push Not at hpub
    -- the next ticket is not published, so it is not drawn
    have hall : drawn s.trace = (popped s.trace).length := by
      have hle := h.popped_le_drawn
      by_contra hne
      obtain ⟨b, hb, hticket⟩ := hcomplete (popped s.trace).length (by omega)
      exact hpub b hb hticket
    have hseq := h.cell_free _ le_rfl (by omega) hpub
    rw [← hindex, ← h.dequeue_eq] at hseq
    obtain ⟨t, hrun, htrace⟩ : ∃ t, MpscQueue.popAlone cfg destroy s hasOut maxSpins = some t ∧ _ :=
      popAlone_empty hidle hasOut hspins hseq (by rw [h.enqueue_eq, h.dequeue_eq, hall])
    obtain ⟨hinv, hidle', hcomplete', horder⟩ := hkeep t hrun
    have hnil : remaining s.trace = [] := by
      rw [← List.length_eq_zero_iff, h.length_remaining hcomplete, hall, Nat.sub_self]
    refine ⟨t, hrun, hinv, hidle', hcomplete', ?_, ?_⟩
    · rw [htrace, hnil]
      rfl
    · have hpopped : popped t.trace = popped s.trace := by
        rw [htrace]
        simp [Event.popped?]
      rw [remaining, horder, hpopped, ← remaining, hnil]
      rfl

/-- The first event of a drain, and the rest. -/
theorem drainEvents_succ (vs : List V) (n : ℕ) :
    drainEvents (w := w) (P := P) vs 1 ++ drainEvents vs.tail n = drainEvents vs (n + 1) := by
  cases vs <;> rfl

/-- **Repeated pops** of a complete queue drain it. -/
theorem Inv.popsAlone (h : Inv cfg s) (hidle : s.consumer = .idle) (hcomplete : Complete s)
    {calls : List (Bool × ℕ)} (hspins : ∀ c ∈ calls, 1 ≤ c.2) :
    ∃ t, popsAlone cfg destroy calls s = some t ∧
      t.trace = s.trace ++ drainEvents (remaining s.trace) calls.length := by
  induction calls generalizing s with
  | nil => exact ⟨s, rfl, (List.append_nil _).symm⟩
  | cons call calls ih =>
    obtain ⟨u, hu, hinv, hidle', hcomplete', htrace, hrest⟩ :
        ∃ u, MpscQueue.popAlone cfg destroy s call.1 call.2 = some u ∧ _ :=
      h.popAlone_next hidle hcomplete call.1 (hspins call List.mem_cons_self)
    obtain ⟨t, ht, htrace'⟩ :=
      ih hinv hidle' hcomplete' fun c hc => hspins c (List.mem_cons_of_mem call hc)
    refine ⟨t, ?_, ?_⟩
    · rw [MpscQueue.popsAlone, hu]
      exact ht
    · rw [htrace', hrest, htrace, List.append_assoc, drainEvents_succ]
      rfl

/-! ## The main result -/

/-- `size` counts the tickets that are drawn and not popped. -/
theorem Inv.size_eq (h : Inv cfg s) (hrange : drawn s.trace < 2 ^ w) :
    (size s).toNat = drawn s.trace - (popped s.trace).length := by
  rw [size, h.enqueue_eq, h.dequeue_eq]
  exact WrapCounter.toNat_sub h.popped_le_drawn (by omega)

/-- Once a ticket is given up, fewer pushes return ok than tickets are drawn. -/
theorem Account.published_lt (h : Account s) (hinv : Inv cfg s) {k : ℕ}
    (hk : k ∈ abandoned s.trace) : (published s.trace).length < drawn s.trace := by
  have hnodup : (k :: (published s.trace).map (·.ticket)).Nodup := by
    refine List.nodup_cons.mpr ⟨?_, hinv.tickets_nodup⟩
    intro hmem
    obtain ⟨b, hb, hticket⟩ := List.mem_map.mp hmem
    exact h.abandoned_fresh k hk b hb hticket
  have hsub : k :: (published s.trace).map (·.ticket) ⊆ List.range (drawn s.trace) := by
    intro j hj
    rcases List.mem_cons.mp hj with rfl | hj
    · exact List.mem_range.mpr (h.abandoned_lt _ hk)
    · obtain ⟨b, hb, rfl⟩ := List.mem_map.mp hj
      exact List.mem_range.mpr (hinv.drawn_lt b hb)
  have hlength := (hnodup.subperm hsub).length_le
  rw [List.length_cons, List.length_map, List.length_range] at hlength
  omega

/-- **A queue at rest drains exactly if no ticket was given up.** For every capacity that `init`
accepts, every number of producers and every interleaving that draws fewer tickets than the
counter's range and ends with all threads idle: repeated pops return the elements pushed and not
popped in ticket order and then `empty`, and `size` is their number, exactly if all steps of the run
were patient. -/
theorem drains_iff_patient [DecidableEq P] (cfg : Config w) (destroy : V → V) {memory : ℕ → V}
    {labels : List (Label P V)}
    (hrun : Transition.run (step cfg destroy) (initial w P memory) labels = some s)
    (hrange : drawn s.trace < 2 ^ w) (hrest : AtRest s) :
    Drains cfg destroy s ↔
      Transition.EveryStep (step cfg destroy) (Patient cfg) (initial w P memory) labels := by
  obtain ⟨hinv, haccount⟩ := account_of_run hrun hrange
  have hsize := hinv.size_eq hrange
  have hpatient : Transition.EveryStep (step cfg destroy) (Patient cfg) (initial w P memory) labels ↔
      abandoned s.trace = [] := by
    rw [(abandoned_run hrun).2, ← List.length_eq_zero_iff]
    exact Iff.rfl
  rw [hpatient]
  constructor
  · intro hdrains
    by_contra hsome
    obtain ⟨k, hk⟩ := List.exists_mem_of_ne_nil _ hsome
    -- the given up ticket is counted by `size`, but not among what remains
    have hlt := haccount.published_lt hinv hk
    have hle := hinv.popped_le_of_fresh (haccount.abandoned_fresh k hk)
    have hk' := haccount.abandoned_lt k hk
    have hremaining : (remaining s.trace).length =
        (published s.trace).length - (popped s.trace).length := by
      rw [remaining, List.length_map, List.length_drop, inOrder, List.length_insertionSort]
    have heq := hdrains.size_eq
    omega
  · intro hnone
    have hcomplete := haccount.complete hrest hnone
    have hlength := hinv.length_remaining hcomplete
    refine ⟨hsize.trans hlength.symm, ?_, fun calls hspins =>
      hinv.popsAlone hrest.2 hcomplete hspins⟩
    -- the last drawn ticket is in the window
    rw [hsize]
    by_cases hzero : drawn s.trace = 0
    · omega
    · obtain ⟨b, hb, hticket⟩ := hcomplete (drawn s.trace - 1) (by omega)
      have hwindow := hinv.window b hb
      omega

/-- One producer pushes twice. -/
def twoPushes : List (Label Unit ℕ) :=
  [.push () (some 1) 1, .producer (), .producer (), .producer (),
    .push () (some 2) 1, .producer (), .producer (), .producer ()]

/-- Two pushes into two cells. -/
theorem drains_iff_patient_two :
    ∃ s, Transition.run (step twoCells id) (initial 64 Unit fun _ => 0) twoPushes = some s ∧
      remaining s.trace = [1, 2] ∧ Drains twoCells id s := by
  obtain ⟨s, hrun, hhistory⟩ := Transition.exists_run_eq (step twoCells id)
    (initial 64 Unit fun _ => 0) twoPushes
    (fun s => decide (remaining s.trace = [1, 2] ∧ drawn s.trace = 2 ∧ abandoned s.trace = [] ∧
      s.producers () = .idle ∧ s.consumer = .idle)) (b := true) (by decide)
  obtain ⟨hremaining, hdrawn, hnone, hproducer, hconsumer⟩ := of_decide_eq_true hhistory
  have hpatient := (abandoned_run hrun).2.mpr (by rw [hnone]; rfl)
  exact ⟨s, hrun, hremaining, (drains_iff_patient twoCells id hrun (by omega)
    ⟨fun _ => hproducer, hconsumer⟩).mpr hpatient⟩

/-- A third push is allowed one load. -/
def threePushes : List (Label Unit ℕ) := twoPushes ++ [.push () (some 3) 1, .producer ()]

/-- What three pops return, with nine loads each. -/
def threePops (s : State 64 Unit ℕ) : Option (List (Event 64 Unit ℕ)) :=
  (popsAlone twoCells id [(true, 9), (true, 9), (true, 9)] s).map fun t =>
    t.trace.drop s.trace.length

/-- A third push into the full queue returns `full` and keeps its ticket: `size` is three, and after
the two elements `pop` returns `full` where `empty` is due. -/
theorem abandoned_ticket_blocks_queue :
    ∃ s, Transition.run (step twoCells id) (initial 64 Unit fun _ => 0) threePushes = some s ∧
      AtRest s ∧ remaining s.trace = [1, 2] ∧ size s = 3 ∧
      threePops s = some [.pop (some 1) .ok, .pop (some 2) .ok, .pop none .full] ∧
      ¬ Drains twoCells id s := by
  obtain ⟨s, hrun, hhistory⟩ := Transition.exists_run_eq (step twoCells id)
    (initial 64 Unit fun _ => 0) threePushes
    (fun s => decide (remaining s.trace = [1, 2] ∧ size s = 3 ∧ s.producers () = .idle ∧
      s.consumer = .idle ∧
      threePops s = some [.pop (some 1) .ok, .pop (some 2) .ok, .pop none .full]))
    (b := true) (by decide)
  obtain ⟨hremaining, hsize, hproducer, hconsumer, hpops⟩ := of_decide_eq_true hhistory
  refine ⟨s, hrun, ⟨fun _ => hproducer, hconsumer⟩, hremaining, hsize, hpops, fun hdrains => ?_⟩
  have hbound := hdrains.size_le
  rw [hsize] at hbound
  exact absurd hbound (by decide)

end MpscQueue

end Memkit
