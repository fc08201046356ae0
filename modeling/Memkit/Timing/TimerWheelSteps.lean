import Memkit.Timing.TimerWheelTick

/-! # Ticks of several steps

`tick(steps)` of `detail/timer_wheel_core.hpp` for any number of steps. Between two steps no user
code runs but the callbacks.

* **`TickCall`**, **`next`** — a call in progress, and its next step.
* **`NoWrap`** — the tick count and the deadlines of a run do not wrap; such a run is punctual.
* **`tick_on_time`** — the call returns after as many steps as it was asked for, and invokes every
  callback in the step in which it is due. -/

namespace Memkit

namespace TimerWheel

open Transition Relation

variable {w : ℕ} {ι : Type*} [DecidableEq ι]

/-- A call of `tick` in progress, and the steps that it has to begin yet. -/
structure TickCall (w : ℕ) (ι : Type*) where
  running : Running w ι
  left : ℕ

omit [DecidableEq ι] in
/-- `tick(steps)`: refused, or at the test of its loop. -/
def tickSteps (s : Session w ι) (steps : BitVec w) : Status × TickCall w ι :=
  if steps = 0 then (.invalid, ⟨⟨s, []⟩, 0⟩) else (.ok, ⟨⟨s, []⟩, steps.toNat⟩)

/-- The next step of the call; there is none when it has returned. -/
def next (N : NumSlots w) (callable : ι → Bool) (callbacks : Callbacks w ι) (c : TickCall w ι) :
    Option (TickCall w ι) :=
  match c.running.session.phase, c.left with
  | .idle, 0 => none
  | .idle, left + 1 => some ⟨beginTick N c.running.session, left⟩
  | _, left => (advance N callable callbacks c.running).map fun p => ⟨p, left⟩

/-- The tick count and the deadline that a step sets do not wrap. -/
def NoWrap (s : Session w ι) : Label ι → Prop
  | .schedule _ d => s.wheel.tickCount.toNat + d.toNat < 2 ^ 32
  | .tick => s.wheel.tickCount.toNat + 1 < 2 ^ 32
  | _ => True

omit [DecidableEq ι] in
instance (s : Session w ι) : ∀ a, Decidable (NoWrap s a)
  | .schedule _ d => inferInstanceAs (Decidable (s.wheel.tickCount.toNat + d.toNat < 2 ^ 32))
  | .tick => inferInstanceAs (Decidable (s.wheel.tickCount.toNat + 1 < 2 ^ 32))
  | .cancel _ => isTrue trivial
  | .dispatch => isTrue trivial
  | .callbackReturn => isTrue trivial
  | .refill => isTrue trivial

/-! ## Runs that do not wrap -/

variable {N : NumSlots w} {callable : ι → Bool} {callbacks : Callbacks w ι} {s t : Session w ι}
  {a : Agenda ι} {labels : List (Label ι)} {T : ℕ} {n : ι} {u : ℕ}

/-- The exact times are below `2 ^ 32`. -/
structure Below (a : Agenda ι) : Prop where
  now : a.now < 2 ^ 32
  due : ∀ n u, a.due n = some u → u < 2 ^ 32

/-- The history follows the agenda, and no time in it has wrapped. -/
def Straight (N : NumSlots w) (callable : ι → Bool) (a : Agenda ι) (s : Session w ι) : Prop :=
  Tracks N callable a s ∧ Below (a.afterAll s.trace)

/-- The tick count is the exact time. -/
theorem Straight.tickCount_eq (h : Straight N callable a s) :
    s.wheel.tickCount.toNat = a.now + ticks s.trace := by
  obtain ⟨⟨-, lists, hinv⟩, hbelow⟩ := h
  rw [hinv.tick_eq, BitVec.toNat_ofNat, Nat.mod_eq_of_lt hbelow.now, Agenda.now_afterAll]

/-- **A step that does not wrap is punctual.** -/
theorem Straight.punctual (h : Straight N callable a s) (hN : N.cap ≤ 2 ^ 32) (label : Label ι) :
    Punctual N s label := by
  obtain ⟨⟨-, lists, hinv⟩, hbelow⟩ := h
  cases label with
  | tick =>
    show slotOf N (s.wheel.tickCount + 1) = N.index (s.wheel.currentSlot + 1)
    rw [index_succ hinv.slot_eq, hinv.tick_eq, WrapCounter.ofNat_succ, slotOf_ofNat hN]
  | dispatch =>
    intro n hfront hlt
    cases hbucket : lists (.bucket s.wheel.currentSlot.toNat) with
    | nil =>
      have hempty := hinv.layout.empty_iff.mpr hbucket
      have hnext : s.wheel.hooks.next (.sentinel (.bucket s.wheel.currentSlot.toNat)) = .node n :=
        hfront
      simp [Hooks.empty, Hooks.isLinked, hnext] at hempty
    | cons m ms =>
      obtain ⟨u, hu, hf, -⟩ := hinv.due_front hbucket
      obtain rfl : m = n := Hook.node.inj ((hinv.layout.front_eq hbucket).symm.trans hfront)
      have hle := hf.le_due
      rw [hf.deadline_eq, hinv.tick_eq, BitVec.lt_def, BitVec.toNat_ofNat, BitVec.toNat_ofNat,
        Nat.mod_eq_of_lt (hbelow.due m u hu), Nat.mod_eq_of_lt hbelow.now] at hlt
      omega
  | schedule n d => trivial
  | cancel n => trivial
  | callbackReturn => trivial
  | refill => trivial

/-- An event whose times do not wrap. -/
def Agenda.Fits (a : Agenda ι) : TimerEvent ι → Prop
  | .schedule _ d _ => a.now + d.toNat < 2 ^ 32
  | .tick => a.now + 1 < 2 ^ 32
  | _ => True

/-- A node that is disarmed. -/
theorem Below.disarm (h : Below a) (n : ι) : Below { a with due := Function.update a.due n none } := by
  refine ⟨h.now, fun m u hu => ?_⟩
  replace hu : Function.update a.due n none m = some u := hu
  by_cases hm : m = n
  · rw [hm, Function.update_self] at hu
    cases hu
  · rw [Function.update_of_ne hm] at hu
    exact h.due m u hu

theorem Below.after (h : Below a) {e : TimerEvent ι} (he : Agenda.Fits a e) : Below (a.after e) := by
  cases e with
  | schedule n d result =>
    cases result with
    | ok =>
      refine ⟨h.now, fun m u hu => ?_⟩
      replace hu : Function.update a.due n (some (a.now + d.toNat)) m = some u := hu
      by_cases hm : m = n
      · rw [hm, Function.update_self] at hu
        obtain rfl := Option.some.inj hu
        exact he
      · rw [Function.update_of_ne hm] at hu
        exact h.due m u hu
    | _ => exact h
  | cancel n => exact h.disarm n
  | tick => exact ⟨he, h.due⟩
  | fire n => exact h.disarm n
  | tickEnd => exact h

/-- What a step adds to the history. -/
theorem trace_step {label : Label ι} (hstep : step N callable s label = some t) :
    t.trace = s.trace ∨ ∃ e, t.trace = s.trace ++ [e] ∧
      match e with
      | .schedule n d _ => label = .schedule n d
      | .tick => label = .tick
      | _ => True := by
  cases stepsTo hstep with
  | schedule n d _ => exact .inr ⟨_, rfl, rfl⟩
  | cancel n _ => exact .inr ⟨_, rfl, trivial⟩
  | tick _ => exact .inr ⟨_, rfl, rfl⟩
  | dispatch _ hdispatch =>
    unfold dispatch at hdispatch
    split at hdispatch
    · obtain rfl := Option.some.inj hdispatch
      exact .inl rfl
    split at hdispatch
    · cases hdispatch
    · next n _ =>
      obtain rfl := Option.some.inj hdispatch
      unfold examine
      by_cases hdue : s.wheel.deadline n ≤ s.wheel.tickCount
      · by_cases hcall : callable n
        · simp [hdue, hcall]
        · simp [hdue, hcall]
      · simp [hdue]
  | callbackReturn _ _ => exact .inl rfl
  | refill _ hrefill =>
    unfold refill at hrefill
    split at hrefill
    · obtain rfl := Option.some.inj hrefill
      exact .inr ⟨_, rfl, trivial⟩
    split at hrefill
    · cases hrefill
    · obtain rfl := Option.some.inj hrefill
      exact .inl rfl

/-- **A step that does not wrap** follows the agenda, and no time wraps. -/
theorem Straight.step (h : Straight N callable a s) (hN : N.cap ≤ 2 ^ 32) {label : Label ι}
    (hfits : NoWrap s label) (hstep : step N callable s label = some t) :
    Straight N callable a t := by
  refine ⟨h.1.step (h.punctual hN label) hstep, ?_⟩
  have hcount := h.tickCount_eq
  have hnow : (a.afterAll s.trace).now = s.wheel.tickCount.toNat :=
    (Agenda.now_afterAll a s.trace).trans hcount.symm
  rcases trace_step hstep with hsame | ⟨e, htrace, he⟩
  · rw [hsame]
    exact h.2
  rw [htrace, Agenda.afterAll_concat]
  refine h.2.after ?_
  cases e with
  | schedule n d result =>
    obtain rfl : label = .schedule n d := he
    show (a.afterAll s.trace).now + d.toNat < 2 ^ 32
    rw [hnow]
    exact hfits
  | tick =>
    obtain rfl : label = .tick := he
    show (a.afterAll s.trace).now + 1 < 2 ^ 32
    rw [hnow]
    exact hfits
  | cancel n => trivial
  | fire n => trivial
  | tickEnd => trivial

/-- A run that does not wrap leads to the session. -/
def StraightRun (N : NumSlots w) (callable : ι → Bool) (T : ℕ) (s : Session w ι) : Prop :=
  ∃ labels, EveryStep (TimerWheel.step N callable) NoWrap (started N ι T) labels ∧
    run (TimerWheel.step N callable) (started N ι T) labels = some s

theorem StraightRun.step (h : StraightRun N callable T s) {label : Label ι}
    (hfits : NoWrap s label) (hstep : TimerWheel.step N callable s label = some t) :
    StraightRun N callable T t := by
  obtain ⟨labels, hall, hrun⟩ := h
  exact ⟨labels ++ [label], hall.concat hrun hfits, run_concat.mpr ⟨s, hrun, hstep⟩⟩

/-- A wheel without timers. -/
theorem straight_started (N : NumSlots w) (callable : ι → Bool) (hT : T < 2 ^ 32) :
    Straight N callable (startAgenda ι T) (started N ι T) :=
  ⟨tracks_started N callable T, hT, fun _ _ hdue => by cases hdue⟩

theorem StraightRun.straight (h : StraightRun N callable T s) (hN : N.cap ≤ 2 ^ 32)
    (hT : T < 2 ^ 32) : Straight N callable (startAgenda ι T) s := by
  obtain ⟨labels, hall, hrun⟩ := h
  exact hall.run_invariant (Straight N callable (startAgenda ι T))
    (fun _ _ _ hs hfits hstep => hs.step hN hfits hstep) (straight_started N callable hT) hrun

/-! ## One step of the call -/

variable {p q : Running w ι} {bound : ℕ}

/-- The deadlines that the callbacks set up to a tick count do not wrap. -/
def CallsFit (callbacks : Callbacks w ι) (bound : ℕ) : Prop :=
  ∀ n (s : Session w ι), s.wheel.tickCount.toNat ≤ bound →
    ∀ c ∈ callbacks n s, c.Fits s.wheel.tickCount

/-- A step of a tick in progress is one of the wheel: a call of the callback, or none that sets a
deadline. -/
theorem advance_step (hadvance : advance N callable callbacks p = some q) :
    ∃ label, TimerWheel.step N callable p.session label = some q.session ∧
      (NoWrap p.session label ∨ ∃ c ∈ p.calls, label = c.label) := by
  cases hphase : p.session.phase with
  | idle => simp only [advance, hphase, reduceCtorEq] at hadvance
  | draining =>
    simp only [advance, hphase] at hadvance
    obtain ⟨s, hs, rfl⟩ := Option.map_eq_some_iff.mp hadvance
    exact ⟨.dispatch, hs, .inl trivial⟩
  | calling n =>
    cases hcalls : p.calls with
    | nil =>
      simp only [advance, hphase, hcalls] at hadvance
      obtain ⟨s, hs, rfl⟩ := Option.map_eq_some_iff.mp hadvance
      exact ⟨.callbackReturn, hs, .inl trivial⟩
    | cons c cs =>
      rw [advance_call hphase hcalls] at hadvance
      obtain ⟨s, hs, rfl⟩ := Option.map_eq_some_iff.mp hadvance
      exact ⟨c.label, hs, .inr ⟨c, List.mem_cons_self, rfl⟩⟩
  | refilling =>
    simp only [advance, hphase] at hadvance
    obtain ⟨s, hs, rfl⟩ := Option.map_eq_some_iff.mp hadvance
    exact ⟨.refill, hs, .inl trivial⟩

omit [DecidableEq ι] in
/-- A call whose deadline does not wrap. -/
theorem noWrap_label {c : UserCall ι} (hfits : c.Fits s.wheel.tickCount) : NoWrap s c.label := by
  cases c with
  | schedule n d => exact hfits
  | cancel n => trivial

/-- A tick in progress after a run that does not wrap. -/
structure StraightTick (N : NumSlots w) (callable : ι → Bool) (T : ℕ) (p : Running w ι) : Prop where
  session : StraightRun N callable T p.session
  calls : ∀ c ∈ p.calls, c.Fits p.session.wheel.tickCount

/-- **One step of a tick in progress.** -/
theorem StraightTick.advance (h : StraightTick N callable T p) (hcalls : CallsFit callbacks bound)
    (hbound : p.session.wheel.tickCount.toNat ≤ bound)
    (hadvance : advance N callable callbacks p = some q) :
    StraightTick N callable T q ∧ q.session.wheel.tickCount = p.session.wheel.tickCount := by
  obtain ⟨hcount, hmade⟩ := advance_tickCount hadvance
  obtain ⟨label, hstep, hlabel⟩ := advance_step hadvance
  refine ⟨⟨h.session.step ?_ hstep, fun c hc => ?_⟩, hcount⟩
  · rcases hlabel with hnone | ⟨c, hc, rfl⟩
    · exact hnone
    · exact noWrap_label (h.calls c hc)
  · rcases hmade c hc with hold | hnew
    · rw [hcount]
      exact h.calls c hold
    · unfold callsOf at hnew
      split at hnew
      · exact hcalls _ q.session (by rw [hcount]; exact hbound) c hnew
      · cases hnew

/-- The steps of a tick in progress. -/
theorem StraightTick.reaches (h : StraightTick N callable T p) (hcalls : CallsFit callbacks bound)
    (hbound : p.session.wheel.tickCount.toNat ≤ bound) (hreach : Reaches N callable callbacks p q) :
    StraightTick N callable T q ∧ q.session.wheel.tickCount = p.session.wheel.tickCount := by
  induction hreach with
  | refl => exact ⟨h, rfl⟩
  | tail _ hadvance ih =>
    obtain ⟨hq, hcount⟩ := ih
    obtain ⟨hnext, hcount'⟩ := hq.advance hcalls (by rw [hcount]; exact hbound) hadvance
    exact ⟨hnext, hcount'.trans hcount⟩

/-- The tick count after one more step. -/
theorem toNat_tickCount_succ (h : s.wheel.tickCount.toNat + 1 < 2 ^ 32) :
    (beginTick N s).session.wheel.tickCount.toNat = s.wheel.tickCount.toNat + 1 := by
  show (s.wheel.tickCount + 1).toNat = _
  rw [BitVec.toNat_add, show (1 : BitVec 32).toNat = 1 from rfl, Nat.mod_eq_of_lt h]

/-- **One step of the call** ends between ticks. -/
theorem StraightRun.tick_completes (h : StraightRun N callable T s) (hN : N.cap ≤ 2 ^ 32)
    (hT : T < 2 ^ 32) (hidle : s.phase = .idle) (hcalls : CallsFit callbacks bound)
    (hnext : s.wheel.tickCount.toNat < bound) (hbound : bound < 2 ^ 32) :
    ∃ q, Reaches N callable callbacks (beginTick N s) q ∧ q.session.phase = .idle ∧
      StraightRun N callable T q.session ∧
      q.session.wheel.tickCount.toNat = s.wheel.tickCount.toNat + 1 := by
  have hsucc : (beginTick N s).session.wheel.tickCount.toNat = s.wheel.tickCount.toNat + 1 :=
    toNat_tickCount_succ (by omega)
  have hfits : NoWrap s .tick := by
    show _ < _
    omega
  have hbegin : StraightTick N callable T (beginTick N s) :=
    ⟨h.step hfits (step_tick hidle), fun _ hc => by cases hc⟩
  have hspares : EveryCallSpares N callable callbacks (beginTick N s) := by
    refine .of_fits rfl fun t ht c hc => ?_
    unfold callsOf at hc
    split at hc
    · rw [← ht]
      exact hcalls _ t (by rw [ht]; omega) c hc
    · cases hc
  obtain ⟨⟨-, lists, hinv⟩, -⟩ := h.straight hN hT
  rw [hidle] at hinv
  obtain ⟨u, lists', hreach, hl, hphase, -⟩ := draining_ends (p := beginTick N s)
    (hinv.layout.init_sentinel hinv.pending_nil) rfl hspares
  obtain ⟨q, hreach', hend, -⟩ := refilling_ends N callable callbacks hl hphase
  obtain ⟨hq, hcount⟩ := hbegin.reaches hcalls (by omega) (hreach.trans hreach')
  refine ⟨q, hreach.trans hreach', hend, hq.session, ?_⟩
  rw [hcount, hsucc]

/-! ## The whole call -/

/-- A step of a tick in progress is one of the call. -/
theorem next_of_advance (left : ℕ) (hadvance : advance N callable callbacks p = some q) :
    next N callable callbacks ⟨p, left⟩ = some ⟨q, left⟩ := by
  unfold next
  cases hphase : p.session.phase with
  | idle => simp only [advance, hphase, reduceCtorEq] at hadvance
  | draining => simp [hadvance]
  | calling n => simp [hadvance]
  | refilling => simp [hadvance]

/-- **The loop of the call**, by induction on the steps left. -/
theorem StraightRun.loop (h : StraightRun N callable T s) (hN : N.cap ≤ 2 ^ 32) (hT : T < 2 ^ 32)
    (hidle : s.phase = .idle) (hcalls : CallsFit callbacks bound) (hbound : bound < 2 ^ 32)
    (left : ℕ) (hleft : s.wheel.tickCount.toNat + left ≤ bound) (calls : List (UserCall ι)) :
    ∃ q, ReflTransGen (fun c d => next N callable callbacks c = some d) ⟨⟨s, calls⟩, left⟩ ⟨q, 0⟩ ∧
      q.session.phase = .idle ∧ StraightRun N callable T q.session ∧
      q.session.wheel.tickCount.toNat = s.wheel.tickCount.toNat + left := by
  induction left generalizing s calls with
  | zero => exact ⟨⟨s, calls⟩, .refl, hidle, h, rfl⟩
  | succ left ih =>
    obtain ⟨⟨t, calls'⟩, hreach, hidle', ht, hcount⟩ :=
      h.tick_completes hN hT hidle hcalls (by omega) hbound
    dsimp only at hidle' ht hcount
    have hbegin : next N callable callbacks ⟨⟨s, calls⟩, left + 1⟩ =
        some ⟨beginTick N s, left⟩ := by
      simp only [next, hidle]
    have hstep : ReflTransGen (fun c d => next N callable callbacks c = some d)
        ⟨beginTick N s, left⟩ ⟨⟨t, calls'⟩, left⟩ :=
      hreach.lift (fun p => (⟨p, left⟩ : TickCall w ι)) fun _ _ hadvance =>
        next_of_advance left hadvance
    obtain ⟨q, hrest, hend, hq, hcountq⟩ := ih ht hidle' (by omega) calls'
    exact ⟨q, .head hbegin (hstep.trans hrest), hend, hq, by omega⟩

/-- **`tick(steps)` is on time**: between the ticks of a run whose times do not wrap, and with
callbacks whose deadlines do not wrap either, the call returns, after exactly `steps` ticks of which
each has invoked the callbacks that were due, and no others; what follows is again such a run. -/
theorem tick_on_time (N : NumSlots w) (hN : N.cap ≤ 2 ^ 32) (callable : ι → Bool) {T : ℕ}
    (hT : T < 2 ^ 32) (s : Session w ι) (hrun : StraightRun N callable T s)
    (hidle : s.phase = .idle) (callbacks : Callbacks w ι) (steps : BitVec w)
    (hsteps : s.wheel.tickCount.toNat + steps.toNat < 2 ^ 32)
    (hcalls : CallsFit callbacks (s.wheel.tickCount.toNat + steps.toNat)) :
    ∃ c, ReflTransGen (fun c d => next N callable callbacks c = some d) (tickSteps s steps).2 c ∧
      next N callable callbacks c = none ∧ c.running.session.phase = .idle ∧
      ticks c.running.session.trace = ticks s.trace + steps.toNat ∧
      OnTime c.running.session.trace ∧ StraightRun N callable T c.running.session := by
  have hstart : (tickSteps s steps).2 = ⟨⟨s, []⟩, steps.toNat⟩ := by
    unfold tickSteps
    by_cases hzero : steps = 0
    · rw [if_pos hzero, hzero, show (0 : BitVec w).toNat = 0 from BitVec.toNat_zero]
    · rw [if_neg hzero]
  obtain ⟨q, hreach, hend, hq, hcount⟩ :=
    hrun.loop hN hT hidle hcalls hsteps steps.toNat le_rfl []
  have hbefore := (hrun.straight hN hT).tickCount_eq
  have hafter := hq.straight hN hT
  have hticks := hafter.tickCount_eq
  rw [hstart]
  refine ⟨⟨q, 0⟩, hreach, ?_, hend, ?_, ?_, hq⟩
  · simp only [next, hend]
  · show ticks q.session.trace = _
    omega
  · exact hafter.1.1.onTime fun _ => rfl

/-- A node that is due in every other step, and one that it cancels in the last. -/
def alternating : Callbacks 64 ℕ := fun n s =>
  if s.wheel.tickCount.toNat < 5 then [.schedule n 2] else [.cancel 1]

/-- Four steps of a wheel on which they are scheduled. -/
theorem tick_on_time_alternating :
    ∃ s, run (step twoSlots fun _ => true) (started twoSlots ℕ 2) [.schedule 0 1, .schedule 1 6] =
        some s ∧
      ∃ c, ReflTransGen (fun c d => next twoSlots (fun _ => true) alternating c = some d)
          (tickSteps s 4).2 c ∧
        next twoSlots (fun _ => true) alternating c = none ∧ c.running.session.phase = .idle ∧
        ticks c.running.session.trace = ticks s.trace + 4 ∧ OnTime c.running.session.trace ∧
        StraightRun twoSlots (fun _ => true) 2 c.running.session := by
  refine ⟨_, rfl, tick_on_time twoSlots (by decide) (fun _ => true) (by decide) _
    ⟨[.schedule 0 1, .schedule 1 6], by decide, rfl⟩ rfl alternating 4 (by decide) ?_⟩
  intro n s hbound c hc
  unfold alternating at hc
  split at hc
  · obtain rfl := List.mem_singleton.mp hc
    exact (by omega : s.wheel.tickCount.toNat + 2 < 2 ^ 32)
  · obtain rfl := List.mem_singleton.mp hc
    trivial

end TimerWheel

end Memkit
