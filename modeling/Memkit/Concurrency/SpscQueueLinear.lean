import Memkit.Concurrency.SpscQueueFifo
import Memkit.Foundations.Potential

/-! # The SPSC queue is linearizable

Under the non-overwriting policies every call of `SpscQueue` takes effect in the step in which it
returns: a push when it stores `tail_` or finds the queue full, a pop when it stores `head_` or finds
it empty, a peek when it reads the slot. So the history of returned calls, in the order of these
steps, is a history of a bounded FIFO queue that one thread uses alone.

* **`FifoCall`** — one call on the bounded queue, with its answer.
* **`linearizable`** — every history is one of the bounded queue.
* **`size_exact_in_role`** — what `size` reads when the producer or the consumer calls it. -/

namespace Memkit

namespace SpscQueue

variable {w : ℕ} {V : Type*} {cfg : Config w} {destroy : V → V} {s t : State w V}

/-! ## The bounded queue -/

/-- One call on a bounded queue that holds `contents`, oldest first: the answer, and the contents
after it. -/
inductive FifoCall (capacity : ℕ) : List V → Event V → List V → Prop
  | pushNull {contents : List V} : FifoCall capacity contents (.push none .nullPtr) contents
  | push {contents : List V} {v : V} (hroom : contents.length < capacity) :
    FifoCall capacity contents (.push (some v) .ok) (contents ++ [v])
  | pushFull {contents : List V} {v : V} (hfull : contents.length = capacity) :
    FifoCall capacity contents (.push (some v) .full) contents
  | pop {contents : List V} {v : V} : FifoCall capacity (v :: contents) (.pop (some v) .ok) contents
  | popEmpty : FifoCall capacity [] (.pop none .empty) []
  | peekNull {contents : List V} : FifoCall capacity contents (.peek none .nullPtr) contents
  | peek {contents : List V} {v : V} :
    FifoCall capacity (v :: contents) (.peek (some v) .ok) (v :: contents)
  | peekEmpty : FifoCall capacity [] (.peek none .empty) []

/-- A history of calls on a bounded queue that is empty at first, and the contents after it. -/
inductive FifoHistory (capacity : ℕ) : List (Event V) → List V → Prop
  | start : FifoHistory capacity [] []
  | call {trace : List (Event V)} {contents contents' : List V} {e : Event V}
    (hbefore : FifoHistory capacity trace contents) (hcall : FifoCall capacity contents e contents') :
    FifoHistory capacity (trace ++ [e]) contents'

/-- The elements published and not popped, oldest first. -/
def contents (s : State w V) : List V := (accepted s.trace).drop (popped s.trace).length

@[simp] theorem contents_initial (memory : ℕ → V) : contents (initial w memory) = [] := rfl

namespace FifoInv

theorem length_contents (_ : FifoInv cfg s) :
    (contents s).length = (accepted s.trace).length - (popped s.trace).length := by
  rw [contents, List.length_drop]

theorem accepted_eq (h : FifoInv cfg s) : accepted s.trace = popped s.trace ++ contents s := by
  have hprefix := List.prefix_iff_eq_take.mp h.order
  have hsplit := List.take_append_drop (popped s.trace).length (accepted s.trace)
  rw [← hprefix] at hsplit
  exact hsplit.symm

end FifoInv

/-! ### What a returned call does to the contents -/

/-- A call that neither pushes nor pops. -/
theorem contents_of_neither {e : Event V} (htrace : t.trace = s.trace ++ [e])
    (hpush : e.pushed? = none) (hpop : e.popped? = none) : contents t = contents s := by
  simp [contents, htrace, hpush, hpop]

/-- A push adds its element behind the others. -/
theorem FifoInv.contents_push (h : FifoInv cfg s) {v : V}
    (htrace : t.trace = s.trace ++ [.push (some v) .ok]) : contents t = contents s ++ [v] := by
  have hle := h.popped_le
  simp [contents, htrace, Event.pushed?, Event.popped?, List.drop_append_of_le_length hle]

/-- A pop takes the first element. -/
theorem FifoInv.contents_pop {v : V} (hv : (accepted s.trace)[(popped s.trace).length]? = some v)
    (htrace : t.trace = s.trace ++ [.pop (some v) .ok]) : contents s = v :: contents t := by
  obtain ⟨hlt, hget⟩ := List.getElem?_eq_some_iff.mp hv
  have hdrop := List.drop_eq_getElem_cons hlt
  rw [hget] at hdrop
  simpa [contents, htrace, Event.pushed?, Event.popped?] using hdrop

/-- The first element of the contents is the oldest one. -/
theorem contents_eq_cons {v : V} (hv : (accepted s.trace)[(popped s.trace).length]? = some v) :
    ∃ rest, contents s = v :: rest := by
  obtain ⟨hlt, hget⟩ := List.getElem?_eq_some_iff.mp hv
  exact ⟨_, by rw [contents, List.drop_eq_getElem_cons hlt, hget]⟩

/-- The contents are empty when everything accepted is popped. -/
theorem contents_eq_nil (hall : (accepted s.trace).length = (popped s.trace).length) :
    contents s = [] := by
  rw [contents, ← hall, List.drop_length]

/-- **A returned call is a call on the bounded queue**, made by the step that returns. -/
theorem FifoInv.fifoCall (h : FifoInv cfg s) {e : Event V} (htrace : t.trace = s.trace ++ [e])
    {a : Label V} (hret : returned cfg s a = some e) :
    FifoCall cfg.cap (contents s) e (contents t) := by
  cases a with
  | push elem =>
    cases elem with
    | none =>
      obtain rfl : Event.push none .nullPtr = e := by simpa [returned] using hret
      rw [contents_of_neither htrace rfl rfl]
      exact .pushNull
    | some v => simp [returned] at hret
  | producer =>
    have hprod := h.producer
    cases hpc : s.producer with
    | loadHead v tail =>
      simp only [returned, hpc, Option.ite_none_right_eq_some, Option.some.injEq] at hret
      obtain ⟨⟨hfull, hpol⟩, rfl⟩ := hret
      have hreturned : returned cfg s .producer = some (.push (some v) .full) := by
        simp [returned, hpc, hfull, hpol]
      have hlen := h.full_exact hreturned
      rw [contents_of_neither htrace rfl rfl]
      exact .pushFull (by rw [h.length_contents]; omega)
    | storeTail v tail =>
      obtain rfl : Event.push (some v) .ok = e := by simpa [returned, hpc] using hret
      rw [hpc] at hprod
      obtain ⟨-, hroom, -⟩ := hprod
      rw [h.contents_push htrace]
      exact .push (by rw [h.length_contents]; have := h.popped_le; omega)
    | overwriteTail v tail =>
      -- the non-overwriting producer never comes here
      rw [hpc] at hprod
      exact hprod.elim
    | _ => simp [returned, hpc] at hret
  | pop hasOut => simp [returned] at hret
  | peek hasOut =>
    cases hasOut with
    | true => simp [returned] at hret
    | false =>
      obtain rfl : Event.peek none .nullPtr = e := by simpa [returned] using hret
      rw [contents_of_neither htrace rfl rfl]
      exact .peekNull
  | consumer =>
    have hcons := h.consumer
    cases hpc : s.consumer with
    | popLoadTail hasOut head =>
      simp only [returned, hpc, Option.ite_none_right_eq_some, Option.some.injEq] at hret
      obtain ⟨hempty, rfl⟩ := hret
      have hreturned : returned cfg s .consumer = some (.pop none .empty) := by
        simp [returned, hpc, hempty]
      have hall := h.empty_exact hreturned
      rw [contents_of_neither htrace rfl rfl, contents_eq_nil hall]
      exact .popEmpty
    | popStore head v =>
      obtain rfl : Event.pop (some v) .ok = e := by simpa [returned, hpc] using hret
      rw [hpc] at hcons
      obtain ⟨-, -, hv⟩ := hcons
      rw [FifoInv.contents_pop hv htrace]
      exact .pop
    | peekLoadTail head =>
      simp only [returned, hpc, Option.ite_none_right_eq_some, Option.some.injEq] at hret
      obtain ⟨hempty, rfl⟩ := hret
      rw [hpc] at hcons
      obtain rfl : head = s.head := hcons
      rw [contents_of_neither htrace rfl rfl, contents_eq_nil (h.empty_iff.mp hempty).symm]
      exact .peekEmpty
    | peekRead head =>
      obtain ⟨v, rfl⟩ : ∃ v, e = Event.peek (some v) .ok :=
        ⟨_, by simpa [returned, hpc] using hret.symm⟩
      obtain ⟨rest, hrest⟩ := contents_eq_cons (h.peek_exact hret)
      rw [contents_of_neither htrace rfl rfl, hrest]
      exact .peek
    | _ => simp [returned, hpc] at hret

/-- **One step** extends the history of the bounded queue, or leaves it. -/
theorem FifoHistory.step (h : FifoInv cfg s) (hist : FifoHistory cfg.cap s.trace (contents s))
    {a : Label V} (hstep : step cfg destroy s a = some t) :
    FifoHistory cfg.cap t.trace (contents t) := by
  have htrace := step_trace hstep
  cases hret : returned cfg s a with
  | none =>
    rw [hret, Option.toList_none, List.append_nil] at htrace
    have hsame : contents t = contents s := by rw [contents, contents, htrace]
    rw [htrace, hsame]
    exact hist
  | some e =>
    rw [hret, Option.toList_some] at htrace
    have hcall := h.fifoCall htrace hret
    rw [htrace]
    exact .call hist hcall

/-- A policy that does not overwrite. -/
theorem overwrites_eq_false {policy : SpscPolicy} (hpol : policy ≠ .overwriteOnFull) :
    policy.overwrites = false := by
  cases policy with
  | none => rfl
  | dropOnFull => rfl
  | overwriteOnFull => exact absurd rfl hpol

/-- **Linearizability.** For every capacity that `init` accepts, every policy but overwriting and
every interleaving: the returned calls, in the order of the steps in which they return, are a history
of a bounded FIFO queue of that capacity, which then holds the elements published and not popped. -/
theorem linearizable {capacity : BitVec w} {policy : SpscPolicy}
    (hinit : init true capacity policy = .ok cfg) (hpol : policy ≠ .overwriteOnFull)
    {memory : ℕ → V} {labels : List (Label V)}
    (hrun : Transition.run (step cfg destroy) (initial w memory) labels = some s) :
    FifoHistory capacity.toNat s.trace (contents s) ∧
      accepted s.trace = popped s.trace ++ contents s := by
  obtain ⟨rfl, rfl⟩ := init_eq_ok hinit
  have hover := overwrites_eq_false hpol
  have hboth : FifoInv cfg s ∧ FifoHistory cfg.cap s.trace (contents s) :=
    Transition.run_invariant (fun u => FifoInv cfg u ∧ FifoHistory cfg.cap u.trace (contents u))
      (fun u a v hu hstep => ⟨hu.1.keep_step hover hstep, hu.2.step hu.1 hstep⟩)
      ⟨fifoInv_initial cfg memory, .start⟩ hrun
  exact ⟨hboth.2, hboth.1.accepted_eq⟩

/-- Three pushes and a pop on two slots: the third push is refused while the pop is on its way. -/
theorem linearizable_two :
    ∃ s : State 64 ℕ,
      Transition.run (step (twoSlots .dropOnFull) id) (initial 64 fun _ => 0)
        [.push (some 7), .producer, .producer, .producer, .push (some 8), .producer, .producer,
          .producer, .pop true, .consumer, .push (some 9), .consumer, .producer, .consumer,
          .consumer] = some s ∧
      s.trace = [.push (some 7) .ok, .push (some 8) .ok, .push (some 9) .full, .pop (some 7) .ok] ∧
      FifoHistory 2 s.trace (contents s) := by
  obtain ⟨s, hs, htrace⟩ := Transition.exists_run_eq (step (twoSlots .dropOnFull) id)
    (initial 64 fun _ => 0)
    [.push (some 7), .producer, .producer, .producer, .push (some 8), .producer, .producer,
      .producer, .pop true, .consumer, .push (some 9), .consumer, .producer, .consumer, .consumer]
    (fun s => s.trace)
    (b := [.push (some 7) .ok, .push (some 8) .ok, .push (some 9) .full, .pop (some 7) .ok])
    (by decide)
  exact ⟨s, hs, htrace, (linearizable (init_twoSlots .dropOnFull) (by decide) hs).1⟩

/-! ## Sizes -/

/-- `size`: `tail_` is loaded in one state and `head_` in a later one. -/
def size (atTail atHead : State w V) : BitVec w := atTail.tail - atHead.head

/-- `empty`. -/
def empty (atTail atHead : State w V) : Bool := size atTail atHead = 0

/-- `full`. -/
def full (cfg : Config w) (atTail atHead : State w V) : Bool :=
  cfg.capacity ≤ size atTail atHead

/-- Whether a label is a step of the producer; the others are of the consumer. -/
def Label.ofProducer : Label V → Bool
  | .push _ => true
  | .producer => true
  | _ => false

/-- The producer pops nothing. -/
theorem popped_of_ofProducer {a : Label V} (ha : a.ofProducer = true)
    (hstep : step cfg destroy s a = some t) : popped t.trace = popped s.trace := by
  rw [step_trace hstep]
  cases a with
  | push elem => cases elem <;> simp [returned, Event.popped?]
  | producer =>
    cases hpc : s.producer with
    | loadHead v tail =>
      by_cases hfull : cfg.capacity ≤ tail - s.head ∧ cfg.queuePolicy.overwrites = false <;>
        simp [returned, hpc, hfull, Event.popped?]
    | _ => simp [returned, hpc, Event.popped?]
  | _ => cases ha

/-- The consumer pushes nothing. -/
theorem accepted_of_not_ofProducer {a : Label V} (ha : a.ofProducer = false)
    (hstep : step cfg destroy s a = some t) : accepted t.trace = accepted s.trace := by
  rw [step_trace hstep]
  cases a with
  | pop hasOut => simp [returned]
  | peek hasOut => cases hasOut <;> simp [returned, Event.pushed?]
  | consumer =>
    cases hpc : s.consumer with
    | popLoadTail hasOut head =>
      by_cases hempty : head = s.tail <;> simp [returned, hpc, hempty, Event.pushed?]
    | peekLoadTail head =>
      by_cases hempty : head = s.tail <;> simp [returned, hpc, hempty, Event.pushed?]
    | _ => simp [returned, hpc, Event.pushed?]
  | _ => cases ha

/-- Only the consumer takes steps: what was accepted stays. -/
theorem accepted_of_consumer_run {more : List (Label V)} (hmore : ∀ a ∈ more, a.ofProducer = false)
    (hrun : Transition.run (step cfg destroy) s more = some t) :
    accepted t.trace = accepted s.trace :=
  Transition.run_invariant_of_good (fun u => accepted u.trace = accepted s.trace)
    (fun a => a.ofProducer = false)
    (fun _ _ _ hu ha hstep => (accepted_of_not_ofProducer ha hstep).trans hu) rfl hmore hrun

/-- Only the producer takes steps: what was popped stays. -/
theorem popped_of_producer_run {more : List (Label V)} (hmore : ∀ a ∈ more, a.ofProducer = true)
    (hrun : Transition.run (step cfg destroy) s more = some t) :
    popped t.trace = popped s.trace :=
  Transition.run_invariant_of_good (fun u => popped u.trace = popped s.trace)
    (fun a => a.ofProducer = true)
    (fun _ _ _ hu ha hstep => (popped_of_ofProducer ha hstep).trans hu) rfl hmore hrun

/-- Pops are never undone. -/
theorem popped_le_of_run {more : List (Label V)}
    (hrun : Transition.run (step cfg destroy) s more = some t) :
    (popped s.trace).length ≤ (popped t.trace).length := by
  refine Transition.run_invariant (fun u => (popped s.trace).length ≤ (popped u.trace).length)
    (fun u a v hu hstep => hu.trans ?_) le_rfl hrun
  rw [step_trace hstep]
  simp [popped]

/-- The two loads of `size` as counts. -/
theorem FifoInv.toNat_size (hs : FifoInv cfg s) (ht : FifoInv cfg t)
    (hle : (popped t.trace).length ≤ (accepted s.trace).length)
    (hroom : (accepted s.trace).length ≤ (popped t.trace).length + cfg.cap) :
    (size s t).toNat = (accepted s.trace).length - (popped t.trace).length := by
  have hcap := cfg.cap_lt
  rw [size, hs.tail_eq, ht.head_eq]
  exact WrapCounter.toNat_sub hle (by omega)

/-- **`size` is exact for both threads, and for no other.** `size` loads `tail_` in the state `s` and
`head_` in the state `t`, with the steps `more` of the other threads in between. Called by the
producer it is the number of elements at `t`; called by the consumer, at `s`. A third thread may read
`head_` after it has passed the `tail_` read: then the difference wraps, and unless the consumer has
passed it by nearly the whole range of the counters, `full` is true whatever the queue holds. -/
theorem size_exact_in_role {capacity : BitVec w} {policy : SpscPolicy}
    (hinit : init true capacity policy = .ok cfg) (hpol : policy ≠ .overwriteOnFull)
    {memory : ℕ → V} {labels more : List (Label V)}
    (hrun : Transition.run (step cfg destroy) (initial w memory) labels = some s)
    (hmore : Transition.run (step cfg destroy) s more = some t) :
    ((∀ a ∈ more, a.ofProducer = false) → (size s t).toNat = (contents t).length) ∧
    ((∀ a ∈ more, a.ofProducer = true) → (size s t).toNat = (contents s).length) ∧
    ((popped t.trace).length ≤ (accepted s.trace).length →
      (size s t).toNat = (accepted s.trace).length - (popped t.trace).length) ∧
    ((accepted s.trace).length < (popped t.trace).length →
      (popped t.trace).length - (accepted s.trace).length + capacity.toNat ≤ 2 ^ w →
      full cfg s t = true ∧ empty s t = false) := by
  obtain ⟨rfl, rfl⟩ := init_eq_ok hinit
  have hover := overwrites_eq_false hpol
  -- both snapshots are of states of the run, the second one later
  have hs := fifoInv_run hover hrun
  have ht : FifoInv cfg t :=
    Transition.run_invariant (FifoInv cfg) (fun _ _ _ hu hstep => hu.keep_step hover hstep) hs hmore
  have hsle := hs.popped_le
  have htle := ht.popped_le
  have hsroom := hs.room
  have htroom := ht.room
  refine ⟨fun hcons => ?_, fun hprod => ?_, fun hle => ?_, fun hlt hfar => ?_⟩
  · have hsame := accepted_of_consumer_run hcons hmore
    rw [hsame] at htle htroom
    rw [hs.toNat_size ht htle htroom, ht.length_contents, hsame]
  · have hsame := popped_of_producer_run hprod hmore
    rw [hs.toNat_size ht (by rw [hsame]; exact hsle) (by rw [hsame]; exact hsroom),
      hs.length_contents, hsame]
  · have hgrown := popped_le_of_run hmore
    exact hs.toNat_size ht hle (by omega)
  · -- `head_` read late is ahead of `tail_` read early
    have hsize : (size s t).toNat =
        2 ^ w - ((popped t.trace).length - (accepted s.trace).length) := by
      have hcap := cfg.cap_ge
      change 2 ≤ cfg.capacity.toNat at hcap
      rw [size, hs.tail_eq, ht.head_eq]
      exact WrapCounter.toNat_sub_of_lt hlt (by omega)
    have hcap := cfg.cap_ge
    change 2 ≤ cfg.capacity.toNat at hcap
    refine ⟨?_, ?_⟩
    · rw [full, decide_eq_true_iff, BitVec.le_def, hsize]
      omega
    · rw [empty, decide_eq_false_iff_not]
      intro hzero
      have hnone : (size s t).toNat = 0 := by rw [hzero]; simp
      omega

/-- A third thread that reads `tail_` before a push and `head_` after the pop finds an empty queue
full; the producer, which pushes after its own reads, finds one element. -/
theorem size_exact_in_role_third :
    ∃ s t u : State 64 ℕ,
      Transition.run (step (twoSlots .none) id) (initial 64 fun _ => 0) [] = some s ∧
      Transition.run (step (twoSlots .none) id) s
        [.push (some 7), .producer, .producer, .producer, .pop true, .consumer, .consumer, .consumer,
          .consumer] = some t ∧
      Transition.run (step (twoSlots .none) id) s [.pop true, .consumer] = some u ∧
      full (twoSlots .none) s t = true ∧ contents t = [] ∧
      (size s u).toNat = (contents u).length := by
  obtain ⟨t, ht, hend⟩ := Transition.exists_run_eq (step (twoSlots .none) id)
    (initial 64 fun _ => 0)
    [.push (some 7), .producer, .producer, .producer, .pop true, .consumer, .consumer, .consumer,
      .consumer] (fun t => (contents t, popped t.trace)) (b := ([], [7])) (by decide)
  obtain ⟨hcontents, hpopped⟩ := Prod.ext_iff.mp hend
  obtain ⟨u, hu⟩ := Option.isSome_iff_exists.mp (show (Transition.run (step (twoSlots .none) id)
    (initial 64 fun _ => 0) [.pop true, .consumer]).isSome by decide)
  have hstart : Transition.run (step (twoSlots .none) id) (initial 64 fun _ => 0) [] =
      some (initial 64 fun _ => 0) := rfl
  have hlate := (size_exact_in_role (init_twoSlots .none) (by decide) hstart ht).2.2.2
  have hcons := (size_exact_in_role (init_twoSlots .none) (by decide) hstart hu).1
  change popped t.trace = [7] at hpopped
  refine ⟨_, t, u, rfl, ht, hu, (hlate ?_ ?_).1, hcontents, hcons ?_⟩
  · rw [hpopped]
    decide
  · rw [hpopped]
    decide
  · intro a ha
    fin_cases ha <;> rfl

end SpscQueue

end Memkit
