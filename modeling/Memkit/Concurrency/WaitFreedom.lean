import Memkit.Concurrency.MpscQueue
import Memkit.Concurrency.SpscQueue
import Memkit.Foundations.Potential

/-! # Calls on the lock-free queues are bounded

A thread inside `push`, `pop` or `peek` can always take its next step, and a call returns after a
bounded number of them, whatever the other threads do in between: in `SpscQueue` the bound is a
constant, in `MpscQueue` it grows with the `max_spins` of the calls. The bounds hold in every state,
reachable or not, since each call only ever counts its own steps. -/

namespace Memkit

open Transition

namespace SpscQueue

variable {w : ℕ} {V : Type*} {cfg : Config w} {destroy : V → V} {s t : State w V}

/-- The steps the producer has taken in its call. -/
def ProducerPc.used : ProducerPc w V → ℕ
  | .idle => 0
  | .loadHead _ _ => 0
  | .write _ _ => 1
  | .storeTail _ _ => 2
  | .overwriteDestroy _ _ _ => 1
  | .overwriteWrite _ _ _ => 2
  | .overwriteHead _ _ _ => 3
  | .overwriteTail _ _ => 4

/-- The steps the consumer has taken in its call. -/
def ConsumerPc.used : ConsumerPc w V → ℕ
  | .idle => 0
  | .popLoadTail _ _ => 0
  | .popRead _ => 1
  | .popDestroy _ _ => 2
  | .popStore _ _ => 3
  | .peekLoadTail _ => 0
  | .peekRead _ => 1

/-- Whether a returned call is one of the producer. -/
def Event.isPush : Event V → Bool
  | .push _ _ => true
  | _ => false

/-- The calls of the producer that have returned. -/
def pushesDone (s : State w V) : ℕ := s.trace.countP Event.isPush

/-- The calls of the consumer that have returned. -/
def popsDone (s : State w V) : ℕ := s.trace.countP fun e => !e.isPush

/-- A step of the producer inside a call. -/
def Label.isProducer : Label V → Bool
  | .producer => true
  | _ => false

/-- A step of the consumer inside a call. -/
def Label.isConsumer : Label V → Bool
  | .consumer => true
  | _ => false

theorem ProducerPc.used_lt (pc : ProducerPc w V) : pc.used < 5 := by
  cases pc <;> simp [used]

theorem ConsumerPc.used_lt (pc : ConsumerPc w V) : pc.used < 4 := by
  cases pc <;> simp [used]

/-- The first step of a call only starts it. -/
theorem start_frame {a : Label V} (hstep : step cfg destroy s a = some t)
    (hp : a.isProducer = false) (hc : a.isConsumer = false) :
    t.producer.used = s.producer.used ∧ t.consumer.used = s.consumer.used ∧
      pushesDone s ≤ pushesDone t ∧ popsDone s ≤ popsDone t := by
  have htrace := step_trace hstep
  have hpush : pushesDone s ≤ pushesDone t := by simp [pushesDone, htrace]
  have hpop : popsDone s ≤ popsDone t := by simp [popsDone, htrace]
  cases a with
  | push elem =>
    simp only [step, startPush] at hstep
    split at hstep
    · next hidle =>
      cases hstep
      exact ⟨by simp [hidle, ProducerPc.used], rfl, hpush, hpop⟩
    · next hidle =>
      cases hstep
      exact ⟨rfl, rfl, hpush, hpop⟩
    · cases hstep
  | producer => cases hp
  | pop hasOut =>
    simp only [step, startPop] at hstep
    split at hstep
    · next hidle =>
      cases hstep
      exact ⟨rfl, by simp [hidle, ConsumerPc.used], hpush, hpop⟩
    · cases hstep
  | peek hasOut =>
    simp only [step, startPeek] at hstep
    split at hstep
    · next hidle =>
      cases hstep
      exact ⟨rfl, by simp [hidle, ConsumerPc.used], hpush, hpop⟩
    · next hidle =>
      cases hstep
      exact ⟨rfl, rfl, hpush, hpop⟩
    · cases hstep
  | consumer => cases hc

/-- **A step of the producer** goes on with its call, or ends it. -/
theorem producer_moves (hstep : producerStep cfg destroy s = some t) :
    s.producer.used + 5 * pushesDone s + 1 ≤ t.producer.used + 5 * pushesDone t ∧
      t.consumer = s.consumer ∧ popsDone t = popsDone s := by
  cases producerStepsTo hstep with
  | room hpc hroom => simp [hpc, ProducerPc.used, pushesDone, popsDone]
  | full hpc hfull hpol => simp [hpc, ProducerPc.used, pushesDone, popsDone, Event.isPush]
  | overwrite hpc hfull hpol => simp [hpc, ProducerPc.used, pushesDone, popsDone]
  | write hpc => simp [hpc, ProducerPc.used, pushesDone, popsDone]
  | storeTail hpc => simp [hpc, ProducerPc.used, pushesDone, popsDone, Event.isPush]; omega
  | overwriteDestroy hpc => simp [hpc, ProducerPc.used, pushesDone, popsDone]
  | overwriteWrite hpc => simp [hpc, ProducerPc.used, pushesDone, popsDone]
  | overwriteHead hpc => simp [hpc, ProducerPc.used, pushesDone, popsDone]
  | overwriteTail hpc => simp [hpc, ProducerPc.used, pushesDone, popsDone, Event.isPush]; omega

/-- **A step of the consumer** goes on with its call, or ends it. -/
theorem consumer_moves (hstep : consumerStep cfg destroy s = some t) :
    s.consumer.used + 4 * popsDone s + 1 ≤ t.consumer.used + 4 * popsDone t ∧
      t.producer = s.producer ∧ pushesDone t = pushesDone s := by
  cases consumerStepsTo hstep with
  | popEmpty hpc hempty => simp [hpc, ConsumerPc.used, pushesDone, popsDone, Event.isPush]
  | @popFound hasOut head hpc hne =>
    cases hasOut <;> simp [hpc, ConsumerPc.used, pushesDone, popsDone]
  | popRead hpc => simp [hpc, ConsumerPc.used, pushesDone, popsDone]
  | popDestroy hpc => simp [hpc, ConsumerPc.used, pushesDone, popsDone]
  | popStore hpc => simp [hpc, ConsumerPc.used, pushesDone, popsDone, Event.isPush]; omega
  | peekEmpty hpc hempty => simp [hpc, ConsumerPc.used, pushesDone, popsDone, Event.isPush]
  | peekFound hpc hne => simp [hpc, ConsumerPc.used, pushesDone, popsDone]
  | peekRead hpc => simp [hpc, ConsumerPc.used, pushesDone, popsDone, Event.isPush]; omega

/-- What a step does to the potential of the producer. -/
theorem producer_rises {a : Label V} (hstep : step cfg destroy s a = some t) :
    (if a.isProducer then 1 else 0) + (s.producer.used + 5 * pushesDone s) ≤
      t.producer.used + 5 * pushesDone t := by
  cases hp : a.isProducer with
  | true =>
    cases a <;> cases hp
    have hmoves := (producer_moves hstep).1
    rw [if_pos rfl]
    omega
  | false =>
    cases hc : a.isConsumer with
    | true =>
      cases a <;> cases hc
      obtain ⟨-, hsame, hdone⟩ := consumer_moves hstep
      simp [hsame, hdone]
    | false =>
      obtain ⟨hsame, -, hdone, -⟩ := start_frame hstep hp hc
      simp only [Bool.false_eq_true, if_false]
      omega

/-- What a step does to the potential of the consumer. -/
theorem consumer_rises {a : Label V} (hstep : step cfg destroy s a = some t) :
    (if a.isConsumer then 1 else 0) + (s.consumer.used + 4 * popsDone s) ≤
      t.consumer.used + 4 * popsDone t := by
  cases hc : a.isConsumer with
  | true =>
    cases a <;> cases hc
    have hmoves := (consumer_moves hstep).1
    rw [if_pos rfl]
    omega
  | false =>
    cases hp : a.isProducer with
    | true =>
      cases a <;> cases hp
      obtain ⟨-, hsame, hdone⟩ := producer_moves hstep
      simp [hsame, hdone]
    | false =>
      obtain ⟨-, hsame, -, hdone⟩ := start_frame hstep hp hc
      simp only [Bool.false_eq_true, if_false]
      omega

/-- A thread inside a call is never blocked. -/
theorem producer_enabled (cfg : Config w) (destroy : V → V) (h : s.producer ≠ .idle) :
    (step cfg destroy s .producer).isSome := by
  cases hpc : s.producer with
  | idle => exact absurd hpc h
  | loadHead v tail =>
    simp only [step, producerStep, hpc]
    split
    · split <;> rfl
    · rfl
  | _ => simp [step, producerStep, hpc]

theorem consumer_enabled (cfg : Config w) (destroy : V → V) (h : s.consumer ≠ .idle) :
    (step cfg destroy s .consumer).isSome := by
  cases hpc : s.consumer with
  | idle => exact absurd hpc h
  | popLoadTail hasOut head =>
    simp only [step, consumerStep, hpc]
    split
    · rfl
    · split <;> rfl
  | peekLoadTail head =>
    simp only [step, consumerStep, hpc]
    split <;> rfl
  | _ => simp [step, consumerStep, hpc]

/-- **Wait-freedom of `SpscQueue`**, under every policy: a thread inside a call can take its next
step whatever the other one is doing, and over any run its steps are fewer than five (the producer)
or four (the consumer) for each of its calls that return and for the one that is not over. -/
theorem wait_free (cfg : Config w) (destroy : V → V) (s : State w V) :
    (s.producer ≠ .idle → (step cfg destroy s .producer).isSome) ∧
    (s.consumer ≠ .idle → (step cfg destroy s .consumer).isSome) ∧
    ∀ labels t, run (step cfg destroy) s labels = some t →
      ∃ returned, t.trace = s.trace ++ returned ∧
        labels.countP Label.isProducer < 5 * (returned.countP Event.isPush + 1) ∧
        labels.countP Label.isConsumer < 4 * (returned.countP (fun e => !e.isPush) + 1) := by
  refine ⟨producer_enabled cfg destroy, consumer_enabled cfg destroy, fun labels t hrun => ?_⟩
  obtain ⟨returned, htrace⟩ : s.trace <+: t.trace := by
    refine run_invariant (fun u => s.trace <+: u.trace) (fun u a v hu hstep => ?_)
      (List.prefix_refl _) hrun
    rw [step_trace hstep]
    exact hu.trans (List.prefix_append _ _)
  refine ⟨returned, htrace.symm, ?_, ?_⟩
  · have hmoves := moves_lt_of_used_lt (fun _ => True) (fun _ => True) Label.isProducer
      (fun u : State w V => u.producer.used) pushesDone 5 (fun _ _ _ _ _ _ => trivial)
      (fun u _ => u.producer.used_lt) (fun _ _ _ _ _ h => producer_rises h) trivial
      (fun _ _ => trivial) hrun
    simp only [pushesDone, ← htrace, List.countP_append] at hmoves
    omega
  · have hmoves := moves_lt_of_used_lt (fun _ => True) (fun _ => True) Label.isConsumer
      (fun u : State w V => u.consumer.used) popsDone 4 (fun _ _ _ _ _ _ => trivial)
      (fun u _ => u.consumer.used_lt) (fun _ _ _ _ _ h => consumer_rises h) trivial
      (fun _ _ => trivial) hrun
    simp only [popsDone, ← htrace, List.countP_append] at hmoves
    omega

/-- While the producer is inside a push, the consumer pops in four steps and the push goes on. -/
theorem wait_free_popping :
    ∃ s : State 64 ℕ, run (step (twoSlots .none) id) (initial 64 fun _ => 0)
        [.push (some 7), .producer, .producer, .producer, .push (some 8)] = some s ∧
      ∃ t, run (step (twoSlots .none) id) s
          [.pop true, .consumer, .producer, .consumer, .consumer, .consumer] = some t ∧
        ∃ returned, t.trace = s.trace ++ returned ∧ 1 < 5 * (returned.countP Event.isPush + 1) ∧
          4 < 4 * (returned.countP (fun e => !e.isPush) + 1) := by
  obtain ⟨s, hs, hs'⟩ := exists_run_eq (step (twoSlots .none) id) (initial 64 fun _ => 0)
    [.push (some 7), .producer, .producer, .producer, .push (some 8)]
    (fun s => (run (step (twoSlots .none) id) s
      [.pop true, .consumer, .producer, .consumer, .consumer, .consumer]).isSome) (b := true)
    (by decide)
  obtain ⟨t, ht⟩ := Option.isSome_iff_exists.mp hs'
  exact ⟨s, hs, t, ht, (wait_free (twoSlots .none) id s).2.2 _ t ht⟩

end SpscQueue

namespace MpscQueue

variable {w : ℕ} {P V : Type*} {cfg : Config w} {destroy : V → V} {s t : State w P V} {M : ℕ}

/-- The steps a producer has taken in its call, whose `max_spins` is at most `M`. -/
def ProducerPc.used (M : ℕ) : ProducerPc w V → ℕ
  | .idle => 0
  | .spinning _ _ more => M - (more + 1)
  | .writing _ _ => M
  | .publishing _ _ => M + 1

/-- The steps the consumer has taken in its call, whose `max_spins` is at most `M`. -/
def ConsumerPc.used (M : ℕ) : ConsumerPc w V → ℕ
  | .idle => 0
  | .spinning _ _ more => 2 * (M - (more + 1))
  | .checkEmpty _ _ more => 2 * (M - (more + 1)) + 1
  | .reading _ => 2 * M
  | .destroying _ _ => 2 * M + 1
  | .releasing _ _ => 2 * M + 2

/-- The calls in progress, and those that a label starts, spin at most `M` times. -/
def ProducerPc.SpinsAtMost (M : ℕ) : ProducerPc w V → Prop
  | .spinning _ _ more => more < M
  | _ => True

def ConsumerPc.SpinsAtMost (M : ℕ) : ConsumerPc w V → Prop
  | .spinning _ _ more => more < M
  | .checkEmpty _ _ more => more < M
  | _ => True

structure SpinsAtMost (M : ℕ) (s : State w P V) : Prop where
  producers : ∀ p, (s.producers p).SpinsAtMost M
  consumer : s.consumer.SpinsAtMost M

def Label.SpinsAtMost (M : ℕ) : Label P V → Prop
  | .push _ _ maxSpins => maxSpins ≤ M
  | .pop _ maxSpins => maxSpins ≤ M
  | _ => True

/-- Whether an event is the return of a push of this producer. -/
def Event.isPushOf [DecidableEq P] (p : P) : Event w P V → Bool
  | .pushNull q => q = p
  | .push q _ _ _ => q = p
  | _ => false

/-- Whether an event is the return of a pop. -/
def Event.isPop : Event w P V → Bool
  | .pop _ _ => true
  | _ => false

/-- A step of producer `p` inside a call. -/
def Label.isProducer [DecidableEq P] (p : P) : Label P V → Bool
  | .producer q => q = p
  | _ => false

/-- A step of the consumer inside a call. -/
def Label.isConsumer : Label P V → Bool
  | .consumer => true
  | _ => false

theorem ProducerPc.used_lt (M : ℕ) (pc : ProducerPc w V) : pc.used M < M + 2 := by
  cases pc <;> simp only [used] <;> omega

theorem ConsumerPc.used_lt (M : ℕ) (pc : ConsumerPc w V) : pc.used M < 2 * M + 3 := by
  cases pc <;> simp only [used] <;> omega

theorem spinsAtMost_initial (memory : ℕ → V) : SpinsAtMost M (initial w P memory) where
  producers _ := trivial
  consumer := trivial

/-- The calls of producer `p` that have returned. -/
def pushesDone [DecidableEq P] (p : P) (s : State w P V) : ℕ := s.trace.countP (Event.isPushOf p)

/-- The calls of the consumer that have returned. -/
def popsDone (s : State w P V) : ℕ := s.trace.countP Event.isPop

/-- How far producer `p` has come: the steps of its call, and `M + 2` for each call before. -/
def pushProgress [DecidableEq P] (M : ℕ) (p : P) (s : State w P V) : ℕ :=
  (s.producers p).used M + (M + 2) * pushesDone p s

/-- How far the consumer has come. -/
def popProgress (M : ℕ) (s : State w P V) : ℕ := s.consumer.used M + (2 * M + 3) * popsDone s

section Progress

variable [DecidableEq P]

theorem SpinsAtMost.setProducer (h : SpinsAtMost M s) (q : P) (pc : ProducerPc w V)
    (hpc : pc.SpinsAtMost M) : SpinsAtMost M (s.setProducer q pc) := by
  refine ⟨fun p => ?_, h.consumer⟩
  by_cases hp : p = q
  · subst hp
    simpa using hpc
  · simpa [Function.update_of_ne hp] using h.producers p

/-- Another producer does not come further when `q` moves. -/
theorem pushProgress_setProducer_of_ne {p q : P} (hp : p ≠ q) (pc : ProducerPc w V) :
    pushProgress M p (s.setProducer q pc) = pushProgress M p s := by
  simp [pushProgress, pushesDone, Function.update_of_ne hp]

theorem pushProgress_log_of_not {p : P} {e : Event w P V} (he : e.isPushOf p = false) :
    pushProgress M p (s.log e) = pushProgress M p s := by
  simp [pushProgress, pushesDone, he]

/-- The loop condition of `push` with some rounds left: the rounds gone are the steps used. -/
theorem pushLoop_moves (h : SpinsAtMost M s) (q : P) (v : V) (pos : BitVec w) {rounds : ℕ}
    (hrounds : rounds ≤ M) :
    SpinsAtMost M (pushLoop s q v pos rounds) ∧
      M - rounds + (M + 2) * pushesDone q s ≤ pushProgress M q (pushLoop s q v pos rounds) ∧
      (∀ p ≠ q, pushProgress M p (pushLoop s q v pos rounds) = pushProgress M p s) ∧
      popProgress M (pushLoop s q v pos rounds) = popProgress M s := by
  cases rounds with
  | zero =>
    have hidle := h.setProducer q .idle trivial
    refine ⟨⟨hidle.producers, hidle.consumer⟩, ?_, fun p hp => ?_, ?_⟩
    · simp [pushLoop, pushProgress, pushesDone, ProducerPc.used, Event.isPushOf, Nat.mul_add]
      omega
    · rw [pushLoop, pushProgress_log_of_not (by simp [Event.isPushOf, hp.symm]),
        pushProgress_setProducer_of_ne hp]
    · simp [pushLoop, popProgress, popsDone, Event.isPop]
  | succ more =>
    refine ⟨h.setProducer q _ hrounds, ?_, fun p hp => pushProgress_setProducer_of_ne hp _, rfl⟩
    simp [pushLoop, pushProgress, pushesDone, ProducerPc.used]

/-- **A step of a producer** goes on with its call, or ends it. -/
theorem producer_moves (h : SpinsAtMost M s) {q : P} (hstep : producerStep cfg s q = some t) :
    SpinsAtMost M t ∧ 1 + pushProgress M q s ≤ pushProgress M q t ∧
      (∀ p ≠ q, pushProgress M p t = pushProgress M p s) ∧ popProgress M t = popProgress M s := by
  cases producerStepsTo hstep with
  | claim hp hseq =>
    have hmore := h.producers q
    rw [hp] at hmore
    refine ⟨h.setProducer q _ trivial, ?_, fun p hne => pushProgress_setProducer_of_ne hne _, rfl⟩
    change _ < M at hmore
    simp [pushProgress, pushesDone, hp, ProducerPc.used]
    omega
  | @wait v pos more hp hseq =>
    have hmore := h.producers q
    rw [hp] at hmore
    change more < M at hmore
    obtain ⟨hspins, hself, hothers⟩ := pushLoop_moves h q v pos hmore.le
    refine ⟨hspins, le_trans ?_ hself, hothers⟩
    simp only [pushProgress, hp, ProducerPc.used]
    omega
  | @write v pos hp =>
    have hpc := h.setProducer q (.publishing v pos) trivial
    refine ⟨⟨hpc.producers, hpc.consumer⟩, ?_, fun p hne => ?_, rfl⟩
    · simp [pushProgress, pushesDone, hp, ProducerPc.used]
      omega
    · simp [pushProgress, pushesDone, Function.update_of_ne hne]
  | @publish v pos hp =>
    have hpc := h.setProducer q .idle trivial
    refine ⟨⟨hpc.producers, hpc.consumer⟩, ?_, fun p hne => ?_, ?_⟩
    · simp [pushProgress, pushesDone, hp, ProducerPc.used, Event.isPushOf, Nat.mul_add]
      omega
    · simp [pushProgress, pushesDone, Function.update_of_ne hne, Event.isPushOf, hne.symm]
    · simp [popProgress, popsDone, Event.isPop]

/-- The loop condition of `pop` with some rounds left. -/
theorem popLoop_moves (h : SpinsAtMost M s) (hasOut : Bool) (pos : BitVec w) {rounds : ℕ}
    (hrounds : rounds ≤ M) :
    SpinsAtMost M (popLoop s hasOut pos rounds) ∧
      2 * (M - rounds) + (2 * M + 3) * popsDone s ≤ popProgress M (popLoop s hasOut pos rounds) ∧
      ∀ p, pushProgress M p (popLoop s hasOut pos rounds) = pushProgress M p s := by
  cases rounds with
  | zero =>
    refine ⟨⟨h.producers, trivial⟩, ?_, fun p => pushProgress_log_of_not rfl⟩
    simp [popLoop, popProgress, popsDone, ConsumerPc.used, Event.isPop, Nat.mul_add]
    omega
  | succ more =>
    refine ⟨⟨h.producers, hrounds⟩, ?_, fun p => rfl⟩
    simp [popLoop, popProgress, popsDone, ConsumerPc.used]

/-- **A step of the consumer** goes on with its call, or ends it. -/
theorem consumer_moves (h : SpinsAtMost M s) (hstep : consumerStep cfg destroy s = some t) :
    SpinsAtMost M t ∧ 1 + popProgress M s ≤ popProgress M t ∧
      ∀ p, pushProgress M p t = pushProgress M p s := by
  have hspins := h.consumer
  cases consumerStepsTo hstep with
  | @ready hasOut pos more hc hseq =>
    rw [hc] at hspins
    change more < M at hspins
    refine ⟨⟨h.producers, ?_⟩, ?_, fun p => rfl⟩
    · cases hasOut <;> trivial
    · cases hasOut
      · simp [popProgress, popsDone, hc, ConsumerPc.used]
        omega
      · simp [popProgress, popsDone, hc, ConsumerPc.used]
        omega
  | @look hasOut pos more hc hseq =>
    rw [hc] at hspins
    refine ⟨⟨h.producers, hspins⟩, ?_, fun p => rfl⟩
    simp [popProgress, popsDone, hc, ConsumerPc.used]
    omega
  | @wait hasOut pos more hc =>
    have hmore : more < M := by
      rcases hc with hc | hc <;> rw [hc] at hspins <;> exact hspins
    obtain ⟨hkept, hself, hothers⟩ := popLoop_moves h hasOut pos hmore.le
    refine ⟨hkept, le_trans ?_ hself, hothers⟩
    rcases hc with hc | hc <;> simp only [popProgress, hc, ConsumerPc.used] <;> omega
  | empty hc hempty =>
    rw [hc] at hspins
    change _ < M at hspins
    refine ⟨⟨h.producers, trivial⟩, ?_, fun p => pushProgress_log_of_not rfl⟩
    simp [popProgress, popsDone, hc, ConsumerPc.used, Event.isPop, Nat.mul_add]
    omega
  | read hc =>
    refine ⟨⟨h.producers, trivial⟩, ?_, fun p => rfl⟩
    simp [popProgress, popsDone, hc, ConsumerPc.used]
    omega
  | vacate hc =>
    refine ⟨⟨h.producers, trivial⟩, ?_, fun p => rfl⟩
    simp [popProgress, popsDone, hc, ConsumerPc.used]
    omega
  | release hc =>
    refine ⟨⟨h.producers, trivial⟩, ?_, fun p => pushProgress_log_of_not rfl⟩
    simp [popProgress, popsDone, hc, ConsumerPc.used, Event.isPop, Nat.mul_add]
    omega

/-- The first step of a push: the null check, or the ticket. -/
theorem startPush_moves (h : SpinsAtMost M s) {q : P} {elem : Option V} {maxSpins : ℕ}
    (hmax : maxSpins ≤ M) (hstep : startPush s q elem maxSpins = some t) :
    SpinsAtMost M t ∧ (∀ p, pushProgress M p s ≤ pushProgress M p t) ∧
      popProgress M t = popProgress M s := by
  unfold startPush at hstep
  split at hstep
  · cases hstep
    refine ⟨⟨h.producers, h.consumer⟩, fun p => ?_, ?_⟩
    · by_cases hp : q = p <;> simp [pushProgress, pushesDone, Event.isPushOf, hp, Nat.mul_add]
    · simp [popProgress, popsDone, Event.isPop]
  · next hidle =>
    cases hstep
    have hdrawn : SpinsAtMost M
        ({ s with enqueuePos := s.enqueuePos + 1 }.log (.draw q s.enqueuePos)) :=
      ⟨h.producers, h.consumer⟩
    obtain ⟨hkept, hself, hothers, hpop⟩ := pushLoop_moves hdrawn q _ s.enqueuePos hmax
    refine ⟨hkept, fun p => ?_, hpop.trans ?_⟩
    · by_cases hp : p = q
      · subst hp
        refine le_trans ?_ hself
        simp [pushProgress, pushesDone, hidle, ProducerPc.used, Event.isPushOf]
      · rw [hothers p hp]
        simp [pushProgress, pushesDone, Event.isPushOf]
    · simp [popProgress, popsDone, Event.isPop]
  · cases hstep

/-- The first step of a pop. -/
theorem startPop_moves (h : SpinsAtMost M s) {hasOut : Bool} {maxSpins : ℕ} (hmax : maxSpins ≤ M)
    (hstep : startPop s hasOut maxSpins = some t) :
    SpinsAtMost M t ∧ popProgress M s ≤ popProgress M t ∧
      ∀ p, pushProgress M p t = pushProgress M p s := by
  unfold startPop at hstep
  split at hstep
  · next hidle =>
    cases hstep
    obtain ⟨hkept, hself, hothers⟩ := popLoop_moves h hasOut s.dequeuePos hmax
    refine ⟨hkept, le_trans ?_ hself, hothers⟩
    simp [popProgress, hidle, ConsumerPc.used]
  · cases hstep

/-- No step takes anything back from the history. -/
theorem trace_grows {a : Label P V} (hstep : step cfg destroy s a = some t) :
    s.trace <+: t.trace := by
  have hpush : ∀ q v pos rounds, s.trace <+: (pushLoop s q v pos rounds).trace := by
    intro q v pos rounds
    cases rounds <;> simp [pushLoop]
  have hpop : ∀ hasOut pos rounds, s.trace <+: (popLoop s hasOut pos rounds).trace := by
    intro hasOut pos rounds
    cases rounds <;> simp [popLoop]
  cases a with
  | push q elem maxSpins =>
    simp only [step, startPush] at hstep
    split at hstep
    · cases hstep
      simp
    · cases hstep
      cases maxSpins <;> simp [pushLoop]
    · cases hstep
  | producer q =>
    cases producerStepsTo hstep with
    | wait hp hseq => exact hpush ..
    | _ => simp
  | pop hasOut maxSpins =>
    simp only [step, startPop] at hstep
    split at hstep
    · cases hstep
      exact hpop ..
    · cases hstep
  | consumer =>
    cases consumerStepsTo hstep with
    | wait hc => exact hpop ..
    | _ => simp

/-- What one step does to the progress of every thread. -/
theorem step_moves (h : SpinsAtMost M s) {a : Label P V} (ha : a.SpinsAtMost M)
    (hstep : step cfg destroy s a = some t) :
    SpinsAtMost M t ∧
      (∀ p, (if a.isProducer p then 1 else 0) + pushProgress M p s ≤ pushProgress M p t) ∧
      (if a.isConsumer then 1 else 0) + popProgress M s ≤ popProgress M t := by
  cases a with
  | push q elem maxSpins =>
    obtain ⟨hkept, hpush, hpop⟩ := startPush_moves h ha hstep
    exact ⟨hkept, fun p => by simpa [Label.isProducer] using hpush p,
      by simp [Label.isConsumer, hpop]⟩
  | producer q =>
    obtain ⟨hkept, hself, hothers, hpop⟩ := producer_moves h hstep
    refine ⟨hkept, fun p => ?_, by simp [Label.isConsumer, hpop]⟩
    by_cases hp : p = q
    · subst hp
      simpa [Label.isProducer] using hself
    · simp [Label.isProducer, Ne.symm hp, hothers p hp]
  | pop hasOut maxSpins =>
    obtain ⟨hkept, hpop, hpush⟩ := startPop_moves h ha hstep
    exact ⟨hkept, fun p => by simp [Label.isProducer, hpush p],
      by simpa [Label.isConsumer] using hpop⟩
  | consumer =>
    obtain ⟨hkept, hpop, hpush⟩ := consumer_moves h hstep
    exact ⟨hkept, fun p => by simp [Label.isProducer, hpush p],
      by simpa [Label.isConsumer] using hpop⟩

/-- A thread inside a call is never blocked. -/
theorem producer_enabled (cfg : Config w) (destroy : V → V) {p : P} (h : s.producers p ≠ .idle) :
    (step cfg destroy s (.producer p)).isSome := by
  cases hp : s.producers p with
  | idle => exact absurd hp h
  | spinning v pos more =>
    simp only [step, producerStep, hp]
    split <;> rfl
  | _ => simp [step, producerStep, hp]

theorem consumer_enabled (cfg : Config w) (destroy : V → V) (h : s.consumer ≠ .idle) :
    (step cfg destroy s .consumer).isSome := by
  cases hc : s.consumer with
  | idle => exact absurd hc h
  | spinning hasOut pos more =>
    simp only [step, consumerStep, hc]
    split
    · rfl
    · split <;> rfl
  | checkEmpty hasOut pos more =>
    simp only [step, consumerStep, hc]
    split <;> rfl
  | _ => simp [step, consumerStep, hc]

/-- **Calls on `MpscQueue` are bounded by their spins**: if no call of a run spins more than `M`
times, a thread inside a call can always take its next step, and from any state of the run on, the
steps of a producer are fewer than `M + 2`, and those of the consumer fewer than `2 * M + 3`, for
each of its calls that return and for the one that is not over. No producer waits for another. -/
theorem bounded_by_spins (cfg : Config w) (destroy : V → V) (memory : ℕ → V) (M : ℕ)
    {before labels : List (Label P V)} (hspins : ∀ a ∈ before ++ labels, a.SpinsAtMost M)
    (hbefore : run (step cfg destroy) (initial w P memory) before = some s)
    (hrun : run (step cfg destroy) s labels = some t) :
    (∀ p, s.producers p ≠ .idle → (step cfg destroy s (.producer p)).isSome) ∧
    (s.consumer ≠ .idle → (step cfg destroy s .consumer).isSome) ∧
    ∃ returned, t.trace = s.trace ++ returned ∧
      (∀ p, labels.countP (Label.isProducer p) <
        (M + 2) * (returned.countP (Event.isPushOf p) + 1)) ∧
      labels.countP Label.isConsumer < (2 * M + 3) * (returned.countP Event.isPop + 1) := by
  refine ⟨fun p => producer_enabled cfg destroy, consumer_enabled cfg destroy, ?_⟩
  have hkeep : ∀ (s : State w P V) a t, SpinsAtMost M s → Label.SpinsAtMost M a →
      step cfg destroy s a = some t → SpinsAtMost M t := fun s a t h ha hst => (step_moves h ha hst).1
  have hs : SpinsAtMost M s :=
    run_invariant_of_good (SpinsAtMost M) (Label.SpinsAtMost M) hkeep
      (spinsAtMost_initial memory) (fun a ha => hspins a (by simp [ha])) hbefore
  have hlabels : ∀ a ∈ labels, a.SpinsAtMost M := fun a ha => hspins a (by simp [ha])
  obtain ⟨returned, htrace⟩ : s.trace <+: t.trace :=
    run_invariant (fun u => s.trace <+: u.trace) (fun u a v hu hst => hu.trans (trace_grows hst))
      (List.prefix_refl _) hrun
  refine ⟨returned, htrace.symm, fun p => ?_, ?_⟩
  · have hmoves := moves_lt_of_used_lt (SpinsAtMost M) (Label.SpinsAtMost M) (Label.isProducer p)
      (fun u : State w P V => (u.producers p).used M) (pushesDone p) (M + 2) hkeep
      (fun u _ => (u.producers p).used_lt M) (fun u a v h ha hst => (step_moves h ha hst).2.1 p)
      hs hlabels hrun
    simp only [pushesDone, ← htrace, List.countP_append, Nat.mul_add] at hmoves ⊢
    omega
  · have hmoves := moves_lt_of_used_lt (SpinsAtMost M) (Label.SpinsAtMost M) Label.isConsumer
      (fun u : State w P V => u.consumer.used M) popsDone (2 * M + 3) hkeep
      (fun u _ => u.consumer.used_lt M) (fun u a v h ha hst => (step_moves h ha hst).2.2)
      hs hlabels hrun
    simp only [popsDone, ← htrace, List.countP_append, Nat.mul_add] at hmoves ⊢
    omega

end Progress

/-- Two producers and the consumer, each in the middle of a call. -/
theorem bounded_by_spins_three :
    ∃ s : State 64 (Fin 2) ℕ, run (step twoCells id) (initial 64 (Fin 2) fun _ => 0)
        [.push 0 (some 7) 3, .producer 0, .push 1 (some 8) 3] = some s ∧
      ∃ t, run (step twoCells id) s
          [.producer 0, .producer 1, .producer 0, .pop true 2, .consumer] = some t ∧
        ∃ returned, t.trace = s.trace ++ returned ∧
          2 < 5 * (returned.countP (Event.isPushOf (0 : Fin 2)) + 1) := by
  obtain ⟨s, hs, hs'⟩ := exists_run_eq (step twoCells id) (initial 64 (Fin 2) fun _ => 0)
    [.push 0 (some 7) 3, .producer 0, .push 1 (some 8) 3]
    (fun s => (run (step twoCells id) s
      [.producer 0, .producer 1, .producer 0, .pop true 2, .consumer]).isSome) (b := true)
    (by decide)
  obtain ⟨t, ht⟩ := Option.isSome_iff_exists.mp hs'
  obtain ⟨-, -, returned, htrace, hpush, -⟩ := bounded_by_spins twoCells id (fun _ => 0) 3
    (by simp [Label.SpinsAtMost]) hs ht
  exact ⟨s, hs, t, ht, returned, htrace, hpush 0⟩

end MpscQueue

end Memkit
