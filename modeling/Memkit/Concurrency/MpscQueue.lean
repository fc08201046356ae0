import Memkit.Foundations.Transition
import Memkit.Core.PowerOfTwoCapacity

/-! # The multi-producer single-consumer queue

`detail/mpsc_queue_core.hpp` as an interleaving of any number of producers, one for each element of
a type `P`, and one consumer. One step is one atomic load, store or `fetch_add` or one slot access;
the local computation around it belongs to the same step. That includes `dequeue_pos_`, a plain
member that only the consumer uses.

A producer draws its ticket with `fetch_add` before it knows that the cell is free, and gives up
with `full` when it has seen another sequence number `max_spins` times.

* **`Config`** — what `init` fixes and checks.
* **`State`** — the cells, the two positions, where each thread is in its call, and the history of
  drawn tickets and returned calls, which no step reads.
* **`step`** — the interleaved transition.
* **`published`, `popped`, `drawn`** — what the history says. -/

namespace Memkit

namespace MpscQueue

variable {w : ℕ} {P V : Type*}

/-- The fields that `init` sets, with the checks it made on them. -/
abbrev Config (w : ℕ) := PowerOfTwoCapacity w

/-- Where a producer is inside `push`, with its element and its ticket. -/
inductive ProducerPc (w : ℕ) (V : Type*)
  /-- Not inside `push`. -/
  | idle
  /-- A load of the cell's sequence number is next; `more` loads may follow. -/
  | spinning (elem : V) (pos : BitVec w) (more : ℕ)
  /-- The cell is free: `copy_construct` into it is next. -/
  | writing (elem : V) (pos : BitVec w)
  /-- The cell is written: `seq.store(pos + 1)` is next. -/
  | publishing (elem : V) (pos : BitVec w)
  deriving DecidableEq, Repr

/-- Where the consumer is inside `pop`, with its private copy of `dequeue_pos_`. -/
inductive ConsumerPc (w : ℕ) (V : Type*)
  /-- Not inside `pop`. -/
  | idle
  /-- A load of the cell's sequence number is next; `more` loads may follow. -/
  | spinning (hasOut : Bool) (pos : BitVec w) (more : ℕ)
  /-- The cell is free: the load of `enqueue_pos_` is next. -/
  | checkEmpty (hasOut : Bool) (pos : BitVec w) (more : ℕ)
  /-- The cell is published: moving its element to `out` is next. -/
  | reading (pos : BitVec w)
  /-- `destroy` of the element is next; `out` is what was moved out, if anything. -/
  | destroying (pos : BitVec w) (out : Option V)
  /-- `seq.store(pos + capacity_)` is next. -/
  | releasing (pos : BitVec w) (elem : V)
  deriving DecidableEq, Repr

/-- A drawn ticket or a returned call. -/
inductive Event (w : ℕ) (P V : Type*)
  /-- `enqueue_pos_.fetch_add(1)` gave `pos` to a producer. -/
  | draw (producer : P) (pos : BitVec w)
  /-- `push` with a null element. -/
  | pushNull (producer : P)
  /-- `push` with the ticket `pos` returned. -/
  | push (producer : P) (pos : BitVec w) (elem : V) (result : Status)
  | pop (elem : Option V) (result : Status)
  deriving DecidableEq, Repr

/-- The queue object, all threads and the history. -/
structure State (w : ℕ) (P V : Type*) where
  /-- The sequence numbers of the cells. -/
  seq : ℕ → BitVec w
  /-- The elements of the cells. -/
  data : ℕ → V
  enqueuePos : BitVec w
  dequeuePos : BitVec w
  producers : P → ProducerPc w V
  consumer : ConsumerPc w V
  trace : List (Event w P V)

/-- `init`: rejects a null storage and any capacity that is below 2 or not a power of two. -/
def init (hasStorage : Bool) (capacityPow2 : BitVec w) : Except Status (Config w) :=
  if h : hasStorage = true ∧ 2 ≤ capacityPow2.toNat ∧ isPowerOfTwo capacityPow2 = true then
    .ok (.ofChecks h)
  else .error .invalid

/-- A queue of two cells with 64-bit positions. -/
def twoCells : Config 64 := .two

/-- The state `init` leaves, over cells with contents `memory`: cell `i` has sequence number `i`. -/
def initial (w : ℕ) (P : Type*) (memory : ℕ → V) : State w P V where
  seq := BitVec.ofNat w
  data := memory
  enqueuePos := 0
  dequeuePos := 0
  producers _ := .idle
  consumer := .idle
  trace := []

/-- `size`. -/
def size (s : State w P V) : BitVec w := s.enqueuePos - s.dequeuePos

/-- Which thread moves: an idle thread starts a call, one inside a call goes on. -/
inductive Label (P V : Type*)
  | push (producer : P) (elem : Option V) (maxSpins : ℕ)
  | producer (p : P)
  | pop (hasOut : Bool) (maxSpins : ℕ)
  | consumer
  deriving DecidableEq, Repr

/-- Append to the history. -/
@[simp] def State.log (s : State w P V) (e : Event w P V) : State w P V :=
  { s with trace := s.trace ++ [e] }

/-- Move producer `p` to `pc`. -/
@[simp] def State.setProducer [DecidableEq P] (s : State w P V) (p : P) (pc : ProducerPc w V) :
    State w P V :=
  { s with producers := Function.update s.producers p pc }

/-- The loop condition of `push`, with `rounds` rounds left: go on or return `full`. -/
def pushLoop [DecidableEq P] (s : State w P V) (p : P) (elem : V) (pos : BitVec w) :
    ℕ → State w P V
  | 0 => (s.setProducer p .idle).log (.push p pos elem .full)
  | more + 1 => s.setProducer p (.spinning elem pos more)

/-- `push` entered: the null check, then the `fetch_add`. -/
def startPush [DecidableEq P] (s : State w P V) (p : P) (elem : Option V) (maxSpins : ℕ) :
    Option (State w P V) :=
  match s.producers p, elem with
  | .idle, none => some (s.log (.pushNull p))
  | .idle, some v =>
    some (pushLoop ({ s with enqueuePos := s.enqueuePos + 1 }.log (.draw p s.enqueuePos)) p v
      s.enqueuePos maxSpins)
  | _, _ => none

/-- One step of producer `p` inside `push`. -/
def producerStep [DecidableEq P] (cfg : Config w) (s : State w P V) (p : P) :
    Option (State w P V) :=
  match s.producers p with
  | .idle => none
  | .spinning v pos more =>
    if s.seq (cfg.index pos) = pos then some (s.setProducer p (.writing v pos))
    else some (pushLoop s p v pos more)
  | .writing v pos =>
    some ({ s with data := Function.update s.data (cfg.index pos) v }.setProducer p
      (.publishing v pos))
  | .publishing v pos =>
    some (({ s with seq := Function.update s.seq (cfg.index pos) (pos + 1) }.setProducer p
      .idle).log (.push p pos v .ok))

/-- The loop condition of `pop`, with `rounds` rounds left: go on or return `full`. -/
def popLoop (s : State w P V) (hasOut : Bool) (pos : BitVec w) : ℕ → State w P V
  | 0 => { s with consumer := .idle }.log (.pop none .full)
  | more + 1 => { s with consumer := .spinning hasOut pos more }

/-- `pop` entered. -/
def startPop (s : State w P V) (hasOut : Bool) (maxSpins : ℕ) : Option (State w P V) :=
  match s.consumer with
  | .idle => some (popLoop s hasOut s.dequeuePos maxSpins)
  | _ => none

/-- One step of the consumer inside `pop`. -/
def consumerStep (cfg : Config w) (destroy : V → V) (s : State w P V) : Option (State w P V) :=
  match s.consumer with
  | .idle => none
  | .spinning hasOut pos more =>
    if s.seq (cfg.index pos) = pos + 1 then
      some { s with consumer := if hasOut then .reading pos else .destroying pos none }
    else if s.seq (cfg.index pos) = pos then some { s with consumer := .checkEmpty hasOut pos more }
    else some (popLoop s hasOut pos more)
  | .checkEmpty hasOut pos more =>
    if s.enqueuePos = pos then some ({ s with consumer := .idle }.log (.pop none .empty))
    else some (popLoop s hasOut pos more)
  | .reading pos => some { s with consumer := .destroying pos (some (s.data (cfg.index pos))) }
  | .destroying pos out =>
    let elem := s.data (cfg.index pos)
    some { s with
      data := Function.update s.data (cfg.index pos) (destroy elem)
      consumer := .releasing pos (out.getD elem) }
  | .releasing pos elem =>
    some ({ s with
      seq := Function.update s.seq (cfg.index pos) (pos + cfg.capacity)
      dequeuePos := pos + 1
      consumer := .idle }.log (.pop (some elem) .ok))

/-- What a step of a producer inside `push` is. -/
inductive ProducerStepsTo [DecidableEq P] (cfg : Config w) (s : State w P V) (p : P) :
    State w P V → Prop
  /-- The cell is free for the ticket. -/
  | claim {v : V} {pos : BitVec w} {more : ℕ} (hp : s.producers p = .spinning v pos more)
    (hseq : s.seq (cfg.index pos) = pos) :
    ProducerStepsTo cfg s p (s.setProducer p (.writing v pos))
  | wait {v : V} {pos : BitVec w} {more : ℕ} (hp : s.producers p = .spinning v pos more)
    (hseq : s.seq (cfg.index pos) ≠ pos) : ProducerStepsTo cfg s p (pushLoop s p v pos more)
  | write {v : V} {pos : BitVec w} (hp : s.producers p = .writing v pos) :
    ProducerStepsTo cfg s p
      ({ s with data := Function.update s.data (cfg.index pos) v }.setProducer p
        (.publishing v pos))
  | publish {v : V} {pos : BitVec w} (hp : s.producers p = .publishing v pos) :
    ProducerStepsTo cfg s p
      (({ s with seq := Function.update s.seq (cfg.index pos) (pos + 1) }.setProducer p
        .idle).log (.push p pos v .ok))

/-- **What a producer does** inside `push`. -/
theorem producerStepsTo [DecidableEq P] {cfg : Config w} {s t : State w P V} {p : P}
    (hstep : producerStep cfg s p = some t) : ProducerStepsTo cfg s p t := by
  cases hp : s.producers p with
  | idle => simp only [producerStep, hp, reduceCtorEq] at hstep
  | spinning v pos more =>
    simp only [producerStep, hp] at hstep
    split at hstep
    · next hseq =>
      cases hstep
      exact .claim hp hseq
    · next hseq =>
      cases hstep
      exact .wait hp hseq
  | writing v pos =>
    simp only [producerStep, hp, Option.some.injEq] at hstep
    subst hstep
    exact .write hp
  | publishing v pos =>
    simp only [producerStep, hp, Option.some.injEq] at hstep
    subst hstep
    exact .publish hp

/-- What a step of the consumer inside `pop` is. -/
inductive ConsumerStepsTo (cfg : Config w) (destroy : V → V) (s : State w P V) :
    State w P V → Prop
  /-- The cell is published. -/
  | ready {hasOut : Bool} {pos : BitVec w} {more : ℕ} (hc : s.consumer = .spinning hasOut pos more)
    (hseq : s.seq (cfg.index pos) = pos + 1) :
    ConsumerStepsTo cfg destroy s
      { s with consumer := if hasOut then .reading pos else .destroying pos none }
  | look {hasOut : Bool} {pos : BitVec w} {more : ℕ} (hc : s.consumer = .spinning hasOut pos more)
    (hseq : s.seq (cfg.index pos) = pos) :
    ConsumerStepsTo cfg destroy s { s with consumer := .checkEmpty hasOut pos more }
  | wait {hasOut : Bool} {pos : BitVec w} {more : ℕ}
    (hc : s.consumer = .spinning hasOut pos more ∨ s.consumer = .checkEmpty hasOut pos more) :
    ConsumerStepsTo cfg destroy s (popLoop s hasOut pos more)
  | empty {hasOut : Bool} {pos : BitVec w} {more : ℕ} (hc : s.consumer = .checkEmpty hasOut pos more)
    (hempty : s.enqueuePos = pos) :
    ConsumerStepsTo cfg destroy s ({ s with consumer := .idle }.log (.pop none .empty))
  | read {pos : BitVec w} (hc : s.consumer = .reading pos) :
    ConsumerStepsTo cfg destroy s
      { s with consumer := .destroying pos (some (s.data (cfg.index pos))) }
  | vacate {pos : BitVec w} {out : Option V} (hc : s.consumer = .destroying pos out) :
    ConsumerStepsTo cfg destroy s
      { s with
        data := Function.update s.data (cfg.index pos) (destroy (s.data (cfg.index pos)))
        consumer := .releasing pos (out.getD (s.data (cfg.index pos))) }
  | release {pos : BitVec w} {elem : V} (hc : s.consumer = .releasing pos elem) :
    ConsumerStepsTo cfg destroy s
      ({ s with
        seq := Function.update s.seq (cfg.index pos) (pos + cfg.capacity)
        dequeuePos := pos + 1
        consumer := .idle }.log (.pop (some elem) .ok))

/-- **What the consumer does** inside `pop`. -/
theorem consumerStepsTo {cfg : Config w} {destroy : V → V} {s t : State w P V}
    (hstep : consumerStep cfg destroy s = some t) : ConsumerStepsTo cfg destroy s t := by
  cases hc : s.consumer with
  | idle => simp only [consumerStep, hc, reduceCtorEq] at hstep
  | spinning hasOut pos more =>
    simp only [consumerStep, hc] at hstep
    split at hstep
    · next hseq =>
      cases hstep
      exact .ready hc hseq
    · split at hstep
      · next hseq =>
        cases hstep
        exact .look hc hseq
      · cases hstep
        exact .wait (.inl hc)
  | checkEmpty hasOut pos more =>
    simp only [consumerStep, hc] at hstep
    split at hstep
    · next hempty =>
      cases hstep
      exact .empty hc hempty
    · cases hstep
      exact .wait (.inr hc)
  | reading pos =>
    simp only [consumerStep, hc, Option.some.injEq] at hstep
    subst hstep
    exact .read hc
  | destroying pos out =>
    simp only [consumerStep, hc, Option.some.injEq] at hstep
    subst hstep
    exact .vacate hc
  | releasing pos elem =>
    simp only [consumerStep, hc, Option.some.injEq] at hstep
    subst hstep
    exact .release hc

/-- One step of the interleaving. `destroy` is what an element's destructor leaves in its cell
(the identity for a trivially destructible type). -/
def step [DecidableEq P] (cfg : Config w) (destroy : V → V) (s : State w P V) :
    Label P V → Option (State w P V)
  | .push p elem maxSpins => startPush s p elem maxSpins
  | .producer p => producerStep cfg s p
  | .pop hasOut maxSpins => startPop s hasOut maxSpins
  | .consumer => consumerStep cfg destroy s

/-! ## The history -/

/-- A push that returned ok. -/
structure Publication (P V : Type*) where
  producer : P
  ticket : ℕ
  elem : V
  deriving DecidableEq, Repr

/-- The push that an event completes with ok. -/
def Event.published? : Event w P V → Option (Publication P V)
  | .push p pos v .ok => some ⟨p, pos.toNat, v⟩
  | _ => none

/-- The element that an event takes out of the queue. -/
def Event.popped? : Event w P V → Option V
  | .pop (some v) .ok => some v
  | _ => none

/-- Whether an event is the drawing of a ticket. -/
def Event.isDraw : Event w P V → Bool
  | .draw _ _ => true
  | _ => false

/-- The pushes that returned ok, in the order of their returns. -/
def published (trace : List (Event w P V)) : List (Publication P V) :=
  trace.filterMap Event.published?

/-- The values that `pop` returned, in order. -/
def popped (trace : List (Event w P V)) : List V := trace.filterMap Event.popped?

/-- The number of tickets drawn. -/
def drawn (trace : List (Event w P V)) : ℕ := trace.countP Event.isDraw

section History

variable {trace : List (Event w P V)} {e : Event w P V}

@[simp] theorem published_concat :
    published (trace ++ [e]) = published trace ++ (Event.published? e).toList := by
  rw [published, List.filterMap_append]
  cases h : Event.published? e <;> simp [published, h]

@[simp] theorem popped_concat :
    popped (trace ++ [e]) = popped trace ++ (Event.popped? e).toList := by
  rw [popped, List.filterMap_append]
  cases h : Event.popped? e <;> simp [popped, h]

@[simp] theorem drawn_concat : drawn (trace ++ [e]) = drawn trace + if e.isDraw then 1 else 0 := by
  rw [drawn, List.countP_append, List.countP_singleton]
  rfl

end History

/-! ## What a step can do -/

/-- The two ends of the loop of `push`. -/
theorem pushLoop_cases [DecidableEq P] (s : State w P V) (p : P) (elem : V) (pos : BitVec w)
    (rounds : ℕ) :
    (∃ more, pushLoop s p elem pos rounds = s.setProducer p (.spinning elem pos more)) ∨
      pushLoop s p elem pos rounds = (s.setProducer p .idle).log (.push p pos elem .full) := by
  cases rounds with
  | zero => exact .inr rfl
  | succ more => exact .inl ⟨more, rfl⟩

/-- The two ends of the loop of `pop`. -/
theorem popLoop_cases (s : State w P V) (hasOut : Bool) (pos : BitVec w) (rounds : ℕ) :
    (∃ more, popLoop s hasOut pos rounds = { s with consumer := .spinning hasOut pos more }) ∨
      popLoop s hasOut pos rounds = { s with consumer := .idle }.log (.pop none .full) := by
  cases rounds with
  | zero => exact .inr rfl
  | succ more => exact .inl ⟨more, rfl⟩

/-- Going on with `push` or giving up draws no ticket. -/
@[simp] theorem drawn_pushLoop [DecidableEq P] (s : State w P V) (p : P) (elem : V)
    (pos : BitVec w) (rounds : ℕ) :
    drawn (pushLoop s p elem pos rounds).trace = drawn s.trace := by
  cases rounds <;> simp [pushLoop, Event.isDraw]

/-- The consumer moves from `s` to `t`. -/
def ConsumerMoves (cfg : Config w) (destroy : V → V) (s t : State w P V) : Prop :=
  consumerStep cfg destroy s = some t ∨ ∃ hasOut maxSpins, startPop s hasOut maxSpins = some t

/-- **Frame** of the consumer: its steps append pops to the history and touch no producer. -/
theorem consumer_frame {cfg : Config w} {destroy : V → V} {s t : State w P V}
    (hstep : ConsumerMoves cfg destroy s t) :
    t.producers = s.producers ∧ t.enqueuePos = s.enqueuePos ∧
      (t.trace = s.trace ∨ ∃ elem result, t.trace = s.trace ++ [.pop elem result]) := by
  have hloop : ∀ hasOut pos rounds,
      (popLoop s hasOut pos rounds).producers = s.producers ∧
        (popLoop s hasOut pos rounds).enqueuePos = s.enqueuePos ∧
        ((popLoop s hasOut pos rounds).trace = s.trace ∨
          ∃ elem result, (popLoop s hasOut pos rounds).trace = s.trace ++ [.pop elem result]) := by
    intro hasOut pos rounds
    cases rounds with
    | zero => exact ⟨rfl, rfl, .inr ⟨_, _, rfl⟩⟩
    | succ more => exact ⟨rfl, rfl, .inl rfl⟩
  rcases hstep with hstep | ⟨hasOut, maxSpins, hstep⟩
  · cases consumerStepsTo hstep with
    | ready hc hseq => exact ⟨rfl, rfl, .inl rfl⟩
    | look hc hseq => exact ⟨rfl, rfl, .inl rfl⟩
    | wait hc => exact hloop ..
    | empty hc hempty => exact ⟨rfl, rfl, .inr ⟨_, _, rfl⟩⟩
    | read hc => exact ⟨rfl, rfl, .inl rfl⟩
    | vacate hc => exact ⟨rfl, rfl, .inl rfl⟩
    | release hc => exact ⟨rfl, rfl, .inr ⟨_, _, rfl⟩⟩
  · unfold startPop at hstep
    split at hstep
    · cases hstep
      exact hloop hasOut s.dequeuePos maxSpins
    · cases hstep

/-- The consumer publishes and draws nothing. -/
theorem consumer_history {cfg : Config w} {destroy : V → V} {s t : State w P V}
    (hstep : ConsumerMoves cfg destroy s t) :
    published t.trace = published s.trace ∧ drawn t.trace = drawn s.trace := by
  obtain ⟨-, -, htrace | ⟨elem, result, htrace⟩⟩ := consumer_frame hstep
  · rw [htrace]
    exact ⟨rfl, rfl⟩
  · rw [htrace]
    simp [Event.published?, Event.isDraw]

/-- No step takes a drawn ticket back. -/
theorem drawn_step [DecidableEq P] {cfg : Config w} {destroy : V → V} {s t : State w P V}
    {a : Label P V} (hstep : step cfg destroy s a = some t) :
    drawn s.trace ≤ drawn t.trace := by
  cases a with
  | push p elem maxSpins =>
    simp only [step, startPush] at hstep
    split at hstep
    · cases hstep
      simp [Event.isDraw]
    · cases hstep
      simp [Event.isDraw]
    · cases hstep
  | producer p =>
    cases producerStepsTo hstep with
    | claim hp hseq => exact le_rfl
    | wait hp hseq => rw [drawn_pushLoop]
    | write hp => exact le_rfl
    | publish hp => simp [Event.isDraw]
  | pop hasOut maxSpins =>
    have hmoves : ConsumerMoves cfg destroy s t := .inr ⟨hasOut, maxSpins, hstep⟩
    exact (consumer_history hmoves).2.ge
  | consumer =>
    have hmoves : ConsumerMoves cfg destroy s t := .inl hstep
    exact (consumer_history hmoves).2.ge

end MpscQueue

end Memkit
