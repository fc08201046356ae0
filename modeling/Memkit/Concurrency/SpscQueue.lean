import Memkit.Foundations.Transition
import Memkit.Core.PowerOfTwoCapacity

/-! # The single-producer single-consumer queue

`detail/spsc_queue_core.hpp` as an interleaving of two threads. One step is one atomic load or
store or one slot access; the local computation that follows it belongs to the same step. The
producer runs `push`, the consumer runs `pop` and `peek`.

* **`Config`** — what `init` fixes and checks.
* **`State`** — the two counters, the slots, each thread's position in its call with its private
  snapshots, and the history of returned calls, which no step reads.
* **`step`** — the interleaved transition. -/

namespace Memkit

/-- `spsc_policy`. -/
inductive SpscPolicy
  | none
  | dropOnFull
  | overwriteOnFull
  deriving DecidableEq, Repr

/-- The underlying bits of a `spsc_policy`. -/
def SpscPolicy.bits : SpscPolicy → BitVec 8
  | .none => 0
  | .dropOnFull => 1 <<< 0
  | .overwriteOnFull => 1 <<< 1

/-- The test `(queue_policy & overwrite_on_full) != 0` of `push`. -/
def SpscPolicy.overwrites (policy : SpscPolicy) : Bool :=
  (policy.bits &&& SpscPolicy.overwriteOnFull.bits) != 0

namespace SpscQueue

variable {w : ℕ} {V : Type*}

/-- The fields that `init` sets, with the checks it made on them. -/
structure Config (w : ℕ) extends PowerOfTwoCapacity w where
  /-- `queue_policy_`. -/
  queuePolicy : SpscPolicy

/-- `init`: rejects a null storage and any capacity that is below 2 or not a power of two. -/
def init (hasStorage : Bool) (capacityPow2 : BitVec w) (queuePolicy : SpscPolicy) :
    Except Status (Config w) :=
  if h : hasStorage = true ∧ 2 ≤ capacityPow2.toNat ∧ isPowerOfTwo capacityPow2 = true then
    .ok ⟨.ofChecks h, queuePolicy⟩
  else .error .invalid

/-- Where the producer is inside `push`, with the values it has loaded so far. -/
inductive ProducerPc (w : ℕ) (V : Type*)
  /-- Not inside `push`. -/
  | idle
  /-- `tail_` is loaded, `head_` is next. -/
  | loadHead (elem : V) (tail : BitVec w)
  /-- There is room: `copy_construct` into the tail slot is next. -/
  | write (elem : V) (tail : BitVec w)
  /-- The slot is written, `tail_.store(tail + 1)` is next. -/
  | storeTail (elem : V) (tail : BitVec w)
  /-- Overwriting: `destroy` of the head slot is next. -/
  | overwriteDestroy (elem : V) (tail head : BitVec w)
  /-- Overwriting: `move_construct` into the head slot is next. -/
  | overwriteWrite (elem : V) (tail head : BitVec w)
  /-- Overwriting: `head_.store(head + 1)` is next. -/
  | overwriteHead (elem : V) (tail head : BitVec w)
  /-- Overwriting: `tail_.store(tail + 1)` is next. -/
  | overwriteTail (elem : V) (tail : BitVec w)
  deriving DecidableEq, Repr

/-- Where the consumer is inside `pop` or `peek`, with the values it has loaded so far. -/
inductive ConsumerPc (w : ℕ) (V : Type*)
  /-- Inside neither call. -/
  | idle
  /-- `pop`: `head_` is loaded, `tail_` is next; `hasOut` says that `out` is not null. -/
  | popLoadTail (hasOut : Bool) (head : BitVec w)
  /-- `pop`: moving the head slot to `out` is next. -/
  | popRead (head : BitVec w)
  /-- `pop`: `destroy` of the head slot is next; `out` is what was moved out, if anything. -/
  | popDestroy (head : BitVec w) (out : Option V)
  /-- `pop`: `head_.store(head + 1)` is next. -/
  | popStore (head : BitVec w) (elem : V)
  /-- `peek`: `head_` is loaded, `tail_` is next. -/
  | peekLoadTail (head : BitVec w)
  /-- `peek`: copying the head slot is next. -/
  | peekRead (head : BitVec w)
  deriving DecidableEq, Repr

/-- A returned call. -/
inductive Event (V : Type*)
  | push (elem : Option V) (result : Status)
  | pop (elem : Option V) (result : Status)
  | peek (elem : Option V) (result : Status)
  deriving DecidableEq, Repr

/-- The queue object, both threads and the history of returned calls. -/
structure State (w : ℕ) (V : Type*) where
  head : BitVec w
  tail : BitVec w
  slots : ℕ → V
  producer : ProducerPc w V
  consumer : ConsumerPc w V
  trace : List (Event V)

/-- The state `init` leaves, over storage with contents `memory`. -/
def initial (w : ℕ) (memory : ℕ → V) : State w V where
  head := 0
  tail := 0
  slots := memory
  producer := .idle
  consumer := .idle
  trace := []

/-- Which thread moves: a thread that is idle starts a call, one inside a call goes on. -/
inductive Label (V : Type*)
  | push (elem : Option V)
  | producer
  | pop (hasOut : Bool)
  | peek (hasOut : Bool)
  | consumer
  deriving DecidableEq, Repr

/-- The slot number `index & mask_` that `slot_at` is called with. -/
def slotIndex (cfg : Config w) (index : BitVec w) : ℕ := cfg.index index

/-- Append a returned call to the history. -/
@[simp] def State.log (s : State w V) (e : Event V) : State w V := { s with trace := s.trace ++ [e] }

/-- Store `elem` in slot `i`. -/
@[simp] def State.setSlot (s : State w V) (i : ℕ) (elem : V) : State w V :=
  { s with slots := Function.update s.slots i elem }

/-- `push` entered: the null check, then the load of `tail_`. -/
def startPush (s : State w V) (elem : Option V) : Option (State w V) :=
  match s.producer, elem with
  | .idle, some v => some { s with producer := .loadHead v s.tail }
  | .idle, none => some (s.log (.push none .nullPtr))
  | _, _ => none

/-- One step of the producer inside `push`. -/
def producerStep (cfg : Config w) (destroy : V → V) (s : State w V) : Option (State w V) :=
  match s.producer with
  | .idle => none
  | .loadHead v tail =>
    if cfg.capacity ≤ tail - s.head then
      if cfg.queuePolicy.overwrites then
        some { s with producer := .overwriteDestroy v tail s.head }
      else some ({ s with producer := .idle }.log (.push (some v) .full))
    else some { s with producer := .write v tail }
  | .write v tail =>
    some { s.setSlot (slotIndex cfg tail) v with producer := .storeTail v tail }
  | .storeTail v tail =>
    some ({ s with tail := tail + 1, producer := .idle }.log (.push (some v) .ok))
  | .overwriteDestroy v tail head =>
    some { s.setSlot (slotIndex cfg head) (destroy (s.slots (slotIndex cfg head))) with
      producer := .overwriteWrite v tail head }
  | .overwriteWrite v tail head =>
    some { s.setSlot (slotIndex cfg head) v with producer := .overwriteHead v tail head }
  | .overwriteHead v tail head =>
    some { s with head := head + 1, producer := .overwriteTail v tail }
  | .overwriteTail v tail =>
    some ({ s with tail := tail + 1, producer := .idle }.log (.push (some v) .ok))

/-- What a step of the producer inside `push` is. -/
inductive ProducerStepsTo (cfg : Config w) (destroy : V → V) (s : State w V) : State w V → Prop
  | room {v : V} {tail : BitVec w} (hpc : s.producer = .loadHead v tail)
    (hroom : ¬ cfg.capacity ≤ tail - s.head) :
    ProducerStepsTo cfg destroy s { s with producer := .write v tail }
  | full {v : V} {tail : BitVec w} (hpc : s.producer = .loadHead v tail)
    (hfull : cfg.capacity ≤ tail - s.head) (hpol : cfg.queuePolicy.overwrites = false) :
    ProducerStepsTo cfg destroy s ({ s with producer := .idle }.log (.push (some v) .full))
  | overwrite {v : V} {tail : BitVec w} (hpc : s.producer = .loadHead v tail)
    (hfull : cfg.capacity ≤ tail - s.head) (hpol : cfg.queuePolicy.overwrites = true) :
    ProducerStepsTo cfg destroy s { s with producer := .overwriteDestroy v tail s.head }
  | write {v : V} {tail : BitVec w} (hpc : s.producer = .write v tail) :
    ProducerStepsTo cfg destroy s
      { s.setSlot (slotIndex cfg tail) v with producer := .storeTail v tail }
  | storeTail {v : V} {tail : BitVec w} (hpc : s.producer = .storeTail v tail) :
    ProducerStepsTo cfg destroy s
      ({ s with tail := tail + 1, producer := .idle }.log (.push (some v) .ok))
  | overwriteDestroy {v : V} {tail head : BitVec w}
    (hpc : s.producer = .overwriteDestroy v tail head) :
    ProducerStepsTo cfg destroy s
      { s.setSlot (slotIndex cfg head) (destroy (s.slots (slotIndex cfg head))) with
        producer := .overwriteWrite v tail head }
  | overwriteWrite {v : V} {tail head : BitVec w}
    (hpc : s.producer = .overwriteWrite v tail head) :
    ProducerStepsTo cfg destroy s
      { s.setSlot (slotIndex cfg head) v with producer := .overwriteHead v tail head }
  | overwriteHead {v : V} {tail head : BitVec w} (hpc : s.producer = .overwriteHead v tail head) :
    ProducerStepsTo cfg destroy s { s with head := head + 1, producer := .overwriteTail v tail }
  | overwriteTail {v : V} {tail : BitVec w} (hpc : s.producer = .overwriteTail v tail) :
    ProducerStepsTo cfg destroy s
      ({ s with tail := tail + 1, producer := .idle }.log (.push (some v) .ok))

/-- **What the producer does** inside `push`. -/
theorem producerStepsTo {cfg : Config w} {destroy : V → V} {s t : State w V}
    (hstep : producerStep cfg destroy s = some t) : ProducerStepsTo cfg destroy s t := by
  unfold producerStep at hstep
  cases hpc : s.producer with
  | idle => simp only [hpc, reduceCtorEq] at hstep
  | loadHead v tail =>
    simp only [hpc] at hstep
    split at hstep
    · next hfull =>
      split at hstep
      · next hpol =>
        cases hstep
        exact .overwrite hpc hfull hpol
      · next hpol =>
        cases hstep
        exact .full hpc hfull (Bool.eq_false_iff.mpr hpol)
    · next hroom =>
      cases hstep
      exact .room hpc hroom
  | write v tail =>
    simp only [hpc, Option.some.injEq] at hstep
    exact hstep ▸ .write hpc
  | storeTail v tail =>
    simp only [hpc, Option.some.injEq] at hstep
    exact hstep ▸ .storeTail hpc
  | overwriteDestroy v tail head =>
    simp only [hpc, Option.some.injEq] at hstep
    exact hstep ▸ .overwriteDestroy hpc
  | overwriteWrite v tail head =>
    simp only [hpc, Option.some.injEq] at hstep
    exact hstep ▸ .overwriteWrite hpc
  | overwriteHead v tail head =>
    simp only [hpc, Option.some.injEq] at hstep
    exact hstep ▸ .overwriteHead hpc
  | overwriteTail v tail =>
    simp only [hpc, Option.some.injEq] at hstep
    exact hstep ▸ .overwriteTail hpc

/-- `pop` entered: the load of `head_`. -/
def startPop (s : State w V) (hasOut : Bool) : Option (State w V) :=
  match s.consumer with
  | .idle => some { s with consumer := .popLoadTail hasOut s.head }
  | _ => none

/-- `peek` entered: the null check, then the load of `head_`. -/
def startPeek (s : State w V) (hasOut : Bool) : Option (State w V) :=
  match s.consumer, hasOut with
  | .idle, true => some { s with consumer := .peekLoadTail s.head }
  | .idle, false => some (s.log (.peek none .nullPtr))
  | _, _ => none

/-- One step of the consumer inside `pop` or `peek`. -/
def consumerStep (cfg : Config w) (destroy : V → V) (s : State w V) : Option (State w V) :=
  match s.consumer with
  | .idle => none
  | .popLoadTail hasOut head =>
    if head = s.tail then some ({ s with consumer := .idle }.log (.pop none .empty))
    else if hasOut then some { s with consumer := .popRead head }
    else some { s with consumer := .popDestroy head none }
  | .popRead head =>
    some { s with consumer := .popDestroy head (some (s.slots (slotIndex cfg head))) }
  | .popDestroy head out =>
    let elem := s.slots (slotIndex cfg head)
    some { s.setSlot (slotIndex cfg head) (destroy elem) with
      consumer := .popStore head (out.getD elem) }
  | .popStore head elem =>
    some ({ s with head := head + 1, consumer := .idle }.log (.pop (some elem) .ok))
  | .peekLoadTail head =>
    if head = s.tail then some ({ s with consumer := .idle }.log (.peek none .empty))
    else some { s with consumer := .peekRead head }
  | .peekRead head =>
    some ({ s with consumer := .idle }.log (.peek (some (s.slots (slotIndex cfg head))) .ok))

/-- What a step of the consumer inside `pop` or `peek` is. -/
inductive ConsumerStepsTo (cfg : Config w) (destroy : V → V) (s : State w V) : State w V → Prop
  | popEmpty {hasOut : Bool} {head : BitVec w} (hpc : s.consumer = .popLoadTail hasOut head)
    (hempty : head = s.tail) :
    ConsumerStepsTo cfg destroy s ({ s with consumer := .idle }.log (.pop none .empty))
  | popFound {hasOut : Bool} {head : BitVec w} (hpc : s.consumer = .popLoadTail hasOut head)
    (hne : head ≠ s.tail) :
    ConsumerStepsTo cfg destroy s
      { s with consumer := if hasOut then .popRead head else .popDestroy head none }
  | popRead {head : BitVec w} (hpc : s.consumer = .popRead head) :
    ConsumerStepsTo cfg destroy s
      { s with consumer := .popDestroy head (some (s.slots (slotIndex cfg head))) }
  | popDestroy {head : BitVec w} {out : Option V} (hpc : s.consumer = .popDestroy head out) :
    ConsumerStepsTo cfg destroy s
      { s.setSlot (slotIndex cfg head) (destroy (s.slots (slotIndex cfg head))) with
        consumer := .popStore head (out.getD (s.slots (slotIndex cfg head))) }
  | popStore {head : BitVec w} {elem : V} (hpc : s.consumer = .popStore head elem) :
    ConsumerStepsTo cfg destroy s
      ({ s with head := head + 1, consumer := .idle }.log (.pop (some elem) .ok))
  | peekEmpty {head : BitVec w} (hpc : s.consumer = .peekLoadTail head) (hempty : head = s.tail) :
    ConsumerStepsTo cfg destroy s ({ s with consumer := .idle }.log (.peek none .empty))
  | peekFound {head : BitVec w} (hpc : s.consumer = .peekLoadTail head) (hne : head ≠ s.tail) :
    ConsumerStepsTo cfg destroy s { s with consumer := .peekRead head }
  | peekRead {head : BitVec w} (hpc : s.consumer = .peekRead head) :
    ConsumerStepsTo cfg destroy s
      ({ s with consumer := .idle }.log (.peek (some (s.slots (slotIndex cfg head))) .ok))

/-- **What the consumer does** inside `pop` or `peek`. -/
theorem consumerStepsTo {cfg : Config w} {destroy : V → V} {s t : State w V}
    (hstep : consumerStep cfg destroy s = some t) : ConsumerStepsTo cfg destroy s t := by
  unfold consumerStep at hstep
  cases hpc : s.consumer with
  | idle => simp only [hpc, reduceCtorEq] at hstep
  | popLoadTail hasOut head =>
    simp only [hpc] at hstep
    split at hstep
    · next hempty =>
      cases hstep
      exact .popEmpty hpc hempty
    · next hne =>
      have hfound : ConsumerStepsTo cfg destroy s _ := .popFound hpc hne
      cases hasOut <;> cases hstep <;> exact hfound
  | popRead head =>
    simp only [hpc, Option.some.injEq] at hstep
    exact hstep ▸ .popRead hpc
  | popDestroy head out =>
    simp only [hpc, Option.some.injEq] at hstep
    exact hstep ▸ .popDestroy hpc
  | popStore head elem =>
    simp only [hpc, Option.some.injEq] at hstep
    exact hstep ▸ .popStore hpc
  | peekLoadTail head =>
    simp only [hpc] at hstep
    split at hstep
    · next hempty =>
      cases hstep
      exact .peekEmpty hpc hempty
    · next hne =>
      cases hstep
      exact .peekFound hpc hne
  | peekRead head =>
    simp only [hpc, Option.some.injEq] at hstep
    exact hstep ▸ .peekRead hpc

/-- One step of the interleaving. `destroy` is what an element's destructor leaves in its slot
(the identity for a trivially destructible type). -/
def step (cfg : Config w) (destroy : V → V) (s : State w V) : Label V → Option (State w V)
  | .push elem => startPush s elem
  | .producer => producerStep cfg destroy s
  | .pop hasOut => startPop s hasOut
  | .peek hasOut => startPeek s hasOut
  | .consumer => consumerStep cfg destroy s

/-- The element a returned call added to the queue. -/
def Event.pushed? : Event V → Option V
  | .push (some v) .ok => some v
  | _ => none

/-- The element a returned call took out of the queue. -/
def Event.popped? : Event V → Option V
  | .pop (some v) .ok => some v
  | _ => none

/-- The values whose `push` returned ok, in order. -/
def accepted (trace : List (Event V)) : List V := trace.filterMap Event.pushed?

/-- The values that `pop` returned, in order. -/
def popped (trace : List (Event V)) : List V := trace.filterMap Event.popped?

/-- The call, if any, that an enabled step makes return. -/
def returned (cfg : Config w) (s : State w V) : Label V → Option (Event V)
  | .push none => some (.push none .nullPtr)
  | .push (some _) => none
  | .producer =>
    match s.producer with
    | .loadHead v tail =>
      if cfg.capacity ≤ tail - s.head ∧ cfg.queuePolicy.overwrites = false then
        some (.push (some v) .full)
      else none
    | .storeTail v _ => some (.push (some v) .ok)
    | .overwriteTail v _ => some (.push (some v) .ok)
    | _ => none
  | .pop _ => none
  | .peek hasOut => if hasOut then none else some (.peek none .nullPtr)
  | .consumer =>
    match s.consumer with
    | .popLoadTail _ head => if head = s.tail then some (.pop none .empty) else none
    | .popStore _ elem => some (.pop (some elem) .ok)
    | .peekLoadTail head => if head = s.tail then some (.peek none .empty) else none
    | .peekRead head => some (.peek (some (s.slots (slotIndex cfg head))) .ok)
    | _ => none

/-! ## Configuration and history lemmas -/

/-- A counter word picks the slot of its exact count modulo the capacity. -/
theorem Config.slotIndex_ofNat (cfg : Config w) (n : ℕ) :
    slotIndex cfg (BitVec.ofNat w n) = n % cfg.cap := cfg.index_ofNat n

/-- `init` accepts a capacity exactly when it builds a configuration with it. -/
theorem init_eq_ok {hasStorage : Bool} {capacity : BitVec w} {policy : SpscPolicy}
    {cfg : Config w} (h : init hasStorage capacity policy = .ok cfg) :
    cfg.capacity = capacity ∧ cfg.queuePolicy = policy := by
  unfold init at h
  split at h
  · cases h
    exact ⟨rfl, rfl⟩
  · cases h

/-- A queue of capacity two with 64-bit counters. -/
def twoSlots (policy : SpscPolicy) : Config 64 := ⟨.two, policy⟩

theorem init_twoSlots (policy : SpscPolicy) : init true 2 policy = .ok (twoSlots policy) := rfl

/-! ### The history -/

@[simp] theorem accepted_nil : accepted ([] : List (Event V)) = [] := rfl

@[simp] theorem popped_nil : popped ([] : List (Event V)) = [] := rfl

/-- A returned call extends the accepted values by what it pushed. -/
@[simp] theorem accepted_concat (trace : List (Event V)) (e : Event V) :
    accepted (trace ++ [e]) = accepted trace ++ (Event.pushed? e).toList := by
  rw [accepted, List.filterMap_append]
  cases h : Event.pushed? e <;> simp [accepted, h]

/-- A returned call extends the popped values by what it popped. -/
@[simp] theorem popped_concat (trace : List (Event V)) (e : Event V) :
    popped (trace ++ [e]) = popped trace ++ (Event.popped? e).toList := by
  rw [popped, List.filterMap_append]
  cases h : Event.popped? e <;> simp [popped, h]

/-- A step extends the history by the call it makes return. -/
theorem step_trace {cfg : Config w} {destroy : V → V} {s t : State w V} {a : Label V}
    (hstep : step cfg destroy s a = some t) :
    t.trace = s.trace ++ (returned cfg s a).toList := by
  cases a with
  | push elem =>
    simp only [step, startPush] at hstep
    split at hstep <;> cases hstep <;> simp [returned]
  | producer =>
    cases producerStepsTo hstep with
    | room hpc hroom => simp [returned, hpc, hroom]
    | full hpc hfull hpol => simp [returned, hpc, hfull, hpol]
    | overwrite hpc hfull hpol => simp [returned, hpc, hpol]
    | write hpc => simp [returned, hpc]
    | storeTail hpc => simp [returned, hpc]
    | overwriteDestroy hpc => simp [returned, hpc]
    | overwriteWrite hpc => simp [returned, hpc]
    | overwriteHead hpc => simp [returned, hpc]
    | overwriteTail hpc => simp [returned, hpc]
  | pop hasOut =>
    simp only [step, startPop] at hstep
    split at hstep <;> cases hstep
    simp [returned]
  | peek hasOut =>
    simp only [step, startPeek] at hstep
    split at hstep <;> cases hstep <;> simp [returned]
  | consumer =>
    cases consumerStepsTo hstep with
    | popEmpty hpc hempty => simp [returned, hpc, hempty]
    | popFound hpc hne => simp [returned, hpc, hne]
    | popRead hpc => simp [returned, hpc]
    | popDestroy hpc => simp [returned, hpc]
    | popStore hpc => simp [returned, hpc]
    | peekEmpty hpc hempty => simp [returned, hpc, hempty]
    | peekFound hpc hne => simp [returned, hpc, hne]
    | peekRead hpc => simp [returned, hpc]

end SpscQueue

end Memkit
