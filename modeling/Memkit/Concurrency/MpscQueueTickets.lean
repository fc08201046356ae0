import Memkit.Concurrency.MpscQueueInvariant

/-! # What becomes of the tickets of the MPSC queue

* **`Account`** — every drawn ticket is held by a producer, published or given up, and a ticket given
  up is neither held nor published, now or later.
* **`Patient`** — the steps that give up no ticket, and `abandoned_run`: a run gives up no ticket
  exactly if all its steps are patient. -/

namespace Memkit

namespace MpscQueue

variable {w : ℕ} {P V : Type*} {cfg : Config w} {destroy : V → V} {s t : State w P V} {p : P}
  {v : V} {pos : BitVec w}

/-! ## Accounting for tickets -/

/-- The ticket that an event gives up. -/
def Event.abandoned? : Event w P V → Option ℕ
  | .push _ pos _ .full => some pos.toNat
  | _ => none

/-- The tickets of the pushes that returned full. -/
def abandoned (trace : List (Event w P V)) : List ℕ := trace.filterMap Event.abandoned?

@[simp] theorem abandoned_concat {trace : List (Event w P V)} {e : Event w P V} :
    abandoned (trace ++ [e]) = abandoned trace ++ (Event.abandoned? e).toList := by
  rw [abandoned, List.filterMap_append]
  cases h : Event.abandoned? e <;> simp [abandoned, h]

/-- **Every drawn ticket** is held by a producer, published or given up, and a ticket given up is
neither held nor published. -/
structure Account (s : State w P V) : Prop where
  all : ∀ k < drawn s.trace, (∃ p pos, (s.producers p).ticket? = some pos ∧ pos.toNat = k) ∨
    (∃ b ∈ published s.trace, b.ticket = k) ∨ k ∈ abandoned s.trace
  abandoned_lt : ∀ k ∈ abandoned s.trace, k < drawn s.trace
  abandoned_fresh : ∀ k ∈ abandoned s.trace, ∀ b ∈ published s.trace, b.ticket ≠ k
  abandoned_free : ∀ k ∈ abandoned s.trace, ∀ p pos, (s.producers p).ticket? = some pos →
    pos.toNat ≠ k

namespace Account

/-- Steps that move no ticket keep the account. -/
theorem congr (h : Account s) (hdrawn : drawn t.trace = drawn s.trace)
    (hpub : published t.trace = published s.trace)
    (habandoned : abandoned t.trace = abandoned s.trace)
    (hheld : ∀ p, (t.producers p).ticket? = (s.producers p).ticket?) : Account t := by
  obtain ⟨h1, h2, h3, h4⟩ := h
  refine ⟨?_, ?_, ?_, ?_⟩
  all_goals simp only [hdrawn, hpub, habandoned, hheld]
  · exact h1
  · exact h2
  · exact h3
  · exact h4

variable [DecidableEq P]

/-- A producer that moves on with its ticket keeps the account. -/
theorem moveOn (h : Account s) {pc : ProducerPc w V} (hp : pc.ticket? = (s.producers p).ticket?) :
    Account (s.setProducer p pc) := by
  refine h.congr rfl rfl rfl fun q => ?_
  show (Function.update s.producers p pc q).ticket? = _
  by_cases hqp : q = p
  · subst hqp
    rw [Function.update_self, hp]
  · rw [Function.update_of_ne hqp]

/-- Giving up a ticket. -/
theorem giveUp (h : Account s) (hinv : Inv cfg s) (hp : (s.producers p).ticket? = some pos) :
    Account ((s.setProducer p .idle).log (.push p pos v .full)) := by
  have hticket := (hinv.producers p).ticketOk hp
  have hpub : published (s.trace ++ [.push p pos v .full]) = published s.trace := by
    simp [Event.published?]
  have hdrawn : drawn (s.trace ++ [.push p pos v .full]) = drawn s.trace := by simp [Event.isDraw]
  have habandoned : abandoned (s.trace ++ [.push p pos v .full]) =
      abandoned s.trace ++ [pos.toNat] := by
    simp [Event.abandoned?]
  have hheld : ∀ q pos', (Function.update s.producers p .idle q).ticket? = some pos' →
      q ≠ p ∧ (s.producers q).ticket? = some pos' := by
    intro q pos' hq
    by_cases hqp : q = p
    · subst hqp
      rw [Function.update_self] at hq
      cases hq
    · rw [Function.update_of_ne hqp] at hq
      exact ⟨hqp, hq⟩
  refine ⟨?_, ?_, ?_, ?_⟩
  all_goals simp only [State.log, State.setProducer, hpub, hdrawn, habandoned, List.mem_append,
    List.mem_singleton]
  · intro k hk
    rcases h.all k hk with ⟨q, pos', hq, rfl⟩ | hpublished | hgone
    · by_cases hqp : q = p
      · subst hqp
        obtain rfl : pos = pos' := Option.some.inj (hp.symm.trans hq)
        exact .inr (.inr (.inr rfl))
      · exact .inl ⟨q, pos', by rwa [Function.update_of_ne hqp], rfl⟩
    · exact .inr (.inl hpublished)
    · exact .inr (.inr (.inl hgone))
  · rintro k (hk | rfl)
    · exact h.abandoned_lt k hk
    · exact hticket.lt
  · rintro k (hk | rfl)
    · exact h.abandoned_fresh k hk
    · exact hticket.fresh
  · rintro k (hk | rfl) q pos' hq
    · exact h.abandoned_free k hk q pos' (hheld q pos' hq).2
    · intro heq
      obtain rfl : pos' = pos := BitVec.eq_of_toNat_eq heq
      exact (hheld q pos' hq).1 (hinv.apart q p pos' (hheld q pos' hq).2 hp)

/-- Publishing a ticket. -/
theorem publish (h : Account s) (hp : (s.producers p).ticket? = some pos)
    (seq : ℕ → BitVec w) :
    Account (({ s with seq := seq }.setProducer p .idle).log (.push p pos v .ok)) := by
  have hpub : published (s.trace ++ [.push p pos v .ok]) =
      published s.trace ++ [⟨p, pos.toNat, v⟩] := by
    simp [Event.published?]
  have hdrawn : drawn (s.trace ++ [.push p pos v .ok]) = drawn s.trace := by simp [Event.isDraw]
  have habandoned : abandoned (s.trace ++ [.push p pos v .ok]) = abandoned s.trace := by
    simp [Event.abandoned?]
  refine ⟨?_, ?_, ?_, ?_⟩
  all_goals simp only [State.log, State.setProducer, hpub, hdrawn, habandoned, List.mem_append,
    List.mem_singleton]
  · intro k hk
    rcases h.all k hk with ⟨q, pos', hq, rfl⟩ | ⟨b, hb, hticket⟩ | hgone
    · by_cases hqp : q = p
      · subst hqp
        obtain rfl : pos = pos' := Option.some.inj (hp.symm.trans hq)
        exact .inr (.inl ⟨_, .inr rfl, rfl⟩)
      · exact .inl ⟨q, pos', by rwa [Function.update_of_ne hqp], rfl⟩
    · exact .inr (.inl ⟨b, .inl hb, hticket⟩)
    · exact .inr (.inr hgone)
  · exact h.abandoned_lt
  · rintro k hk b (hb | rfl)
    · exact h.abandoned_fresh k hk b hb
    · exact h.abandoned_free k hk p pos hp
  · intro k hk q pos' hq
    by_cases hqp : q = p
    · subst hqp
      rw [Function.update_self] at hq
      cases hq
    · rw [Function.update_of_ne hqp] at hq
      exact h.abandoned_free k hk q pos' hq

/-- Drawing a ticket and holding it. -/
theorem draw (h : Account s) (hinv : Inv cfg s) (hrange : drawn s.trace + 1 < 2 ^ w)
    (hp : s.producers p = .idle) (more : ℕ) :
    Account (({ s with enqueuePos := s.enqueuePos + 1 }.log (.draw p s.enqueuePos)).setProducer p
      (.spinning v s.enqueuePos more)) := by
  have hword : s.enqueuePos.toNat = drawn s.trace := by
    rw [hinv.enqueue_eq, BitVec.toNat_ofNat, Nat.mod_eq_of_lt (by omega)]
  have hpub : published (s.trace ++ [.draw p s.enqueuePos]) = published s.trace := by
    simp [Event.published?]
  have hdrawn : drawn (s.trace ++ [.draw p s.enqueuePos]) = drawn s.trace + 1 := by
    simp [Event.isDraw]
  have habandoned : abandoned (s.trace ++ [.draw p s.enqueuePos]) = abandoned s.trace := by
    simp [Event.abandoned?]
  refine ⟨?_, ?_, ?_, ?_⟩
  all_goals simp only [State.log, State.setProducer, hpub, hdrawn, habandoned]
  · intro k hk
    by_cases hnew : k = drawn s.trace
    · refine .inl ⟨p, s.enqueuePos, ?_, hword.trans hnew.symm⟩
      rw [Function.update_self]
      rfl
    · rcases h.all k (by omega) with ⟨q, pos', hq, rfl⟩ | hrest
      · have hqp : q ≠ p := by
          rintro rfl
          rw [hp] at hq
          cases hq
        exact .inl ⟨q, pos', by rwa [Function.update_of_ne hqp], rfl⟩
      · exact .inr hrest
  · intro k hk
    exact (h.abandoned_lt k hk).trans (Nat.lt_succ_self _)
  · exact h.abandoned_fresh
  · intro k hk q pos' hq
    have hlt := h.abandoned_lt k hk
    by_cases hqp : q = p
    · subst hqp
      rw [Function.update_self] at hq
      cases hq
      omega
    · rw [Function.update_of_ne hqp] at hq
      exact h.abandoned_free k hk q pos' hq

/-- The loop of `push` keeps the account. -/
theorem pushLoop (h : Account s) (hinv : Inv cfg s) (hp : (s.producers p).ticket? = some pos)
    (v : V) (rounds : ℕ) : Account (pushLoop s p v pos rounds) := by
  rcases pushLoop_cases s p v pos rounds with ⟨more, hloop⟩ | hloop
  · rw [hloop]
    exact h.moveOn hp.symm
  · rw [hloop]
    exact h.giveUp hinv hp

/-- **Every step** keeps the account. -/
theorem step {a : Label P V} (h : Account s) (hinv : Inv cfg s)
    (hstep : step cfg destroy s a = some t) (hrange : drawn t.trace < 2 ^ w) : Account t := by
  have hconsumer : ConsumerMoves cfg destroy s t → Account t := by
    intro hframe
    obtain ⟨hproducers, -, htrace⟩ := consumer_frame hframe
    obtain ⟨hpub, hdrawn⟩ := consumer_history hframe
    have habandoned : abandoned t.trace = abandoned s.trace := by
      rcases htrace with htrace | ⟨elem, result, htrace⟩
      · rw [htrace]
      · simp [htrace, Event.abandoned?]
    exact h.congr hdrawn hpub habandoned fun p => by rw [hproducers]
  cases a with
  | push p elem maxSpins =>
    simp only [MpscQueue.step, startPush] at hstep
    split at hstep
    · cases hstep
      refine h.congr ?_ ?_ ?_ fun _ => rfl
      · simp [Event.isDraw]
      · simp [Event.published?]
      · simp [Event.abandoned?]
    · rename_i v hidle
      cases hstep
      have hdrawn : drawn s.trace + 1 < 2 ^ w := by simpa [Event.isDraw] using hrange
      obtain ⟨hticket, hheld⟩ := hinv.drawn_ok hdrawn p
      -- the loop overwrites the position of `p`, so `p` may hold the ticket before it
      have hsame : ∀ s' : State w P V, MpscQueue.pushLoop s' p v s.enqueuePos maxSpins =
          MpscQueue.pushLoop (s'.setProducer p (.spinning v s.enqueuePos 0)) p v s.enqueuePos
            maxSpins := by
        intro s'
        cases maxSpins <;> simp [MpscQueue.pushLoop]
      rw [hsame]
      have hspin : Inv cfg
          (({ s with enqueuePos := s.enqueuePos + 1 }.log (.draw p s.enqueuePos)).setProducer p
            (.spinning v s.enqueuePos 0)) :=
        (hinv.draw p).setProducer hticket fun pos' q _ hpos' => by
          cases hpos'
          exact hheld q
      refine (h.draw hinv hdrawn hidle 0).pushLoop hspin ?_ v maxSpins
      simp [ProducerPc.ticket?]
    · cases hstep
  | producer p =>
    cases producerStepsTo hstep with
    | claim hp hseq => exact h.moveOn (by rw [hp]; rfl)
    | wait hp hseq => exact h.pushLoop hinv (by rw [hp]; rfl) _ _
    | @write v pos hp =>
      have hwritten : Account { s with data := Function.update s.data (cfg.index pos) v } :=
        h.congr rfl rfl rfl fun _ => rfl
      exact hwritten.moveOn (by rw [show _ = s.producers p from rfl, hp]; rfl)
    | publish hp => exact h.publish (by rw [hp]; rfl) _
  | pop hasOut maxSpins => exact hconsumer (.inr ⟨hasOut, maxSpins, hstep⟩)
  | consumer => exact hconsumer (.inl hstep)

end Account

theorem account_initial (memory : ℕ → V) : Account (initial w P memory) where
  all _ hk := absurd hk (Nat.not_lt_zero _)
  abandoned_lt _ hk := absurd hk List.not_mem_nil
  abandoned_fresh _ hk := absurd hk List.not_mem_nil
  abandoned_free _ hk := absurd hk List.not_mem_nil

/-- Both invariants hold after every run that draws fewer tickets than the counter's range. -/
theorem account_of_run [DecidableEq P] {memory : ℕ → V} {labels : List (Label P V)}
    (hrun : Transition.run (step cfg destroy) (initial w P memory) labels = some s)
    (hrange : drawn s.trace < 2 ^ w) : Inv cfg s ∧ Account s := by
  refine Transition.run_invariant (fun s => drawn s.trace < 2 ^ w → Inv cfg s ∧ Account s) ?_
    (fun _ => ⟨inv_initial cfg memory, account_initial memory⟩) hrun hrange
  intro s a t h hstep hrange
  have hdrawn := drawn_step hstep
  obtain ⟨hinv, haccount⟩ := h (by omega)
  exact ⟨hinv.step hstep hrange, haccount.step hinv hstep hrange⟩

/-! ## Patience -/

/-- The ticket of a push whose next load is its last. -/
def ProducerPc.lastLoad? : ProducerPc w V → Option (BitVec w)
  | .spinning _ pos 0 => some pos
  | _ => none

/-- **The condition** on a step: it is not the last load that a push allows itself, of a sequence
number that differs from its ticket. -/
def Patient (cfg : Config w) (s : State w P V) : Label P V → Prop
  | .push _ elem maxSpins => elem.isSome → maxSpins ≠ 0
  | .producer p => ∀ pos ∈ (s.producers p).lastLoad?, s.seq (cfg.index pos) = pos
  | _ => True

section Patience

variable [DecidableEq P] {a : Label P V} {labels : List (Label P V)}

/-- The loop of `push` gives a ticket up when no round is left. -/
theorem abandoned_pushLoop (s : State w P V) (p : P) (v : V) (pos : BitVec w) (rounds : ℕ) :
    (abandoned (pushLoop s p v pos rounds).trace).length =
      (abandoned s.trace).length + if rounds = 0 then 1 else 0 := by
  cases rounds <;> simp [pushLoop, Event.abandoned?]

/-- A step gives up at most one ticket, and none exactly if it is patient. -/
theorem abandoned_step (hstep : step cfg destroy s a = some t) :
    (abandoned s.trace).length ≤ (abandoned t.trace).length ∧
      (Patient cfg s a ↔ (abandoned t.trace).length = (abandoned s.trace).length) := by
  have hconsumer : ConsumerMoves cfg destroy s t →
      (abandoned t.trace).length = (abandoned s.trace).length := by
    intro hmoves
    obtain ⟨-, -, htrace | ⟨elem, result, htrace⟩⟩ := consumer_frame hmoves
    · rw [htrace]
    · simp [htrace, Event.abandoned?]
  cases a with
  | push p elem maxSpins =>
    simp only [step, startPush] at hstep
    split at hstep
    · cases hstep
      simp [Patient, Event.abandoned?]
    · cases hstep
      rw [abandoned_pushLoop]
      by_cases hzero : maxSpins = 0
      · simp [Patient, Event.abandoned?, hzero]
      · simp [Patient, Event.abandoned?, hzero]
    · cases hstep
  | producer p =>
    cases producerStepsTo hstep with
    | @claim v pos more hp hseq => cases more <;> simp [Patient, hp, ProducerPc.lastLoad?, hseq]
    | @wait v pos more hp hseq =>
      rw [abandoned_pushLoop]
      cases more <;> simp [Patient, hp, ProducerPc.lastLoad?, hseq]
    | write hp => simp [Patient, hp, ProducerPc.lastLoad?]
    | publish hp => simp [Patient, hp, ProducerPc.lastLoad?, Event.abandoned?]
  | pop hasOut maxSpins =>
    have hsame := hconsumer (.inr ⟨hasOut, maxSpins, hstep⟩)
    exact ⟨hsame.ge, iff_of_true trivial hsame⟩
  | consumer =>
    have hsame := hconsumer (.inl hstep)
    exact ⟨hsame.ge, iff_of_true trivial hsame⟩

/-- A run gives up no ticket exactly if all its steps are patient. -/
theorem abandoned_run (hrun : Transition.run (step cfg destroy) s labels = some t) :
    (abandoned s.trace).length ≤ (abandoned t.trace).length ∧
      (Transition.EveryStep (step cfg destroy) (Patient cfg) s labels ↔
        (abandoned t.trace).length = (abandoned s.trace).length) := by
  induction labels generalizing s with
  | nil =>
    obtain rfl : s = t := by simpa using hrun
    exact ⟨le_rfl, iff_of_true trivial rfl⟩
  | cons a labels ih =>
    obtain ⟨u, hu, hrest⟩ := Option.bind_eq_some_iff.mp hrun
    obtain ⟨hle, hfirst⟩ := abandoned_step hu
    obtain ⟨hle', hlater⟩ := ih hrest
    refine ⟨hle.trans hle', ?_⟩
    rw [Transition.everyStep_cons, hfirst]
    simp only [hu, Option.some.injEq, forall_eq', hlater]
    omega

end Patience

end MpscQueue

end Memkit
