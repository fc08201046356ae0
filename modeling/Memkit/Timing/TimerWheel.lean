import Memkit.Core.PowerOfTwoCapacity
import Memkit.Foundations.Transition
import Memkit.Timing.IntrusiveList
import Memkit.Timing.TimerAgenda

/-! # The timer wheel

`detail/timer_wheel_core.hpp` with single-step ticks. Nodes are numbered by a type `ι`; the hooks of
the nodes and the sentinels of the buckets and of the local list `pending` are linked through one
`Hooks`. User code runs between ticks and inside a callback, where it may call `schedule` and
`cancel`; a tick is cut into the steps between which it may run.

* **`TimerWheel`** — the members of the wheel, and the links and deadlines of the nodes.
* **`Session`** — the wheel, where the tick in progress is, and the history.
* **`step`** — one call, or one round of a loop of `dispatch_bucket`. -/

namespace Memkit

/-- The heads of the lists: the buckets, and `pending` of `dispatch_bucket`. -/
inductive ListHead
  | bucket (slot : ℕ)
  | pending
  deriving DecidableEq, Repr

/-- A hook: the one in a node, or a sentinel. -/
inductive Hook (ι : Type*)
  | node (n : ι)
  | sentinel (l : ListHead)
  deriving DecidableEq, Repr

/-- The number of slots, with the checks that the static assertions make on it. -/
abbrev NumSlots (w : ℕ) := PowerOfTwoCapacity w

/-- The members of `timer_wheel_core`, and the hooks and deadlines of the nodes. -/
structure TimerWheel (w : ℕ) (ι : Type*) where
  hooks : Hooks (Hook ι)
  deadline : ι → BitVec 32
  /-- `current_slot_`. -/
  currentSlot : BitVec w
  /-- `tick_count_`. -/
  tickCount : BitVec 32

namespace TimerWheel

variable {w : ℕ} {ι : Type*} [DecidableEq ι]

/-- The slot of a deadline: `static_cast<std::size_t>(deadline) & (NumSlots - 1)`. -/
def slotOf (N : NumSlots w) (deadline : BitVec 32) : ℕ := N.index (deadline.setWidth w)

/-- `schedule`; `callable` says whose callback is not null. -/
def schedule (N : NumSlots w) (callable : ι → Bool) (s : TimerWheel w ι) (node : ι)
    (delayTicks : BitVec 32) : Status × TimerWheel w ι :=
  if delayTicks = 0 then (.invalid, s)
  else if callable node = false then (.invalid, s)
  else if s.hooks.isLinked (.node node) then (.invalid, s)
  else
    let deadline := s.tickCount + delayTicks
    (.ok,
      { s with
        deadline := Function.update s.deadline node deadline
        hooks := s.hooks.pushBack (.sentinel (.bucket (slotOf N deadline))) (.node node) })

/-- `cancel`: the hook is erased from each bucket, which unlinks it wherever it is. -/
def cancel (N : NumSlots w) (s : TimerWheel w ι) (node : ι) : TimerWheel w ι :=
  if s.hooks.isLinked (.node node) then
    { s with
      hooks := (List.range N.cap).foldl (fun h _ => h.erase (.node node)) s.hooks
      deadline := Function.update s.deadline node 0 }
  else s

/-- The beginning of a `tick`, until `pending` is constructed in `dispatch_bucket`. -/
def startTick (N : NumSlots w) (s : TimerWheel w ι) : TimerWheel w ι :=
  { s with
    tickCount := s.tickCount + 1
    currentSlot := (s.currentSlot + 1) &&& N.mask
    hooks := s.hooks.init (.sentinel .pending) }

omit [DecidableEq ι] in
/-- The sentinel of the bucket that is dispatched. -/
def currentBucket (s : TimerWheel w ι) : Hook ι := .sentinel (.bucket s.currentSlot.toNat)

/-! ## Steps -/

/-- Where a tick is. -/
inductive Phase (ι : Type*)
  /-- Between ticks. -/
  | idle
  /-- At the test of the first loop of `dispatch_bucket`. -/
  | draining
  /-- Inside the callback of a node. -/
  | calling (node : ι)
  /-- At the test of the second loop of `dispatch_bucket`. -/
  | refilling
  deriving DecidableEq, Repr

/-- User code runs. -/
def Phase.isUser : Phase ι → Bool
  | .idle => true
  | .calling _ => true
  | _ => false

/-- The wheel, the tick in progress, and the history. -/
structure Session (w : ℕ) (ι : Type*) where
  wheel : TimerWheel w ι
  phase : Phase ι
  trace : List (TimerEvent ι)

/-- Append to the history. -/
@[simp] def Session.log (s : Session w ι) (e : TimerEvent ι) : Session w ι :=
  { s with trace := s.trace ++ [e] }

/-- What happens next. -/
inductive Label (ι : Type*)
  | schedule (node : ι) (delayTicks : BitVec 32)
  | cancel (node : ι)
  | tick
  /-- A round of the first loop of `dispatch_bucket`, or its exit. -/
  | dispatch
  /-- The callback returns. -/
  | callbackReturn
  /-- A round of the second loop of `dispatch_bucket`, or its exit. -/
  | refill
  deriving DecidableEq, Repr

/-- The body of the first loop of `dispatch_bucket` for the node at the front, up to the call of its
callback. -/
def examine (callable : ι → Bool) (s : Session w ι) (n : ι) : Session w ι :=
  let wheel := { s.wheel with hooks := s.wheel.hooks.erase (.node n) }
  if wheel.deadline n ≤ wheel.tickCount then
    if callable n then { s with wheel := wheel, phase := .calling n }.log (.fire n)
    else { s with wheel := wheel }
  else
    { s with
      wheel := { wheel with hooks := wheel.hooks.pushBack (.sentinel .pending) (.node n) } }

/-- A round of the first loop of `dispatch_bucket`. -/
def dispatch (callable : ι → Bool) (s : Session w ι) : Option (Session w ι) :=
  if s.wheel.hooks.empty s.wheel.currentBucket then some { s with phase := .refilling }
  else
    match s.wheel.hooks.front s.wheel.currentBucket with
    | .sentinel _ => none
    | .node n => some (examine callable s n)

/-- The body of the second loop of `dispatch_bucket` for the node at the front. -/
def putBack (s : Session w ι) (n : ι) : Session w ι :=
  { s with
    wheel := { s.wheel with
      hooks := (s.wheel.hooks.erase (.node n)).pushBack s.wheel.currentBucket (.node n) } }

/-- A round of the second loop of `dispatch_bucket`. -/
def refill (s : Session w ι) : Option (Session w ι) :=
  if s.wheel.hooks.empty (.sentinel .pending) then some ({ s with phase := .idle }.log .tickEnd)
  else
    match s.wheel.hooks.front (.sentinel .pending) with
    | .sentinel _ => none
    | .node n => some (putBack s n)

/-- One step. -/
def step (N : NumSlots w) (callable : ι → Bool) (s : Session w ι) :
    Label ι → Option (Session w ι)
  | .schedule n d =>
    if s.phase.isUser then
      let (result, wheel) := schedule N callable s.wheel n d
      some ({ s with wheel := wheel }.log (.schedule n d result))
    else none
  | .cancel n =>
    if s.phase.isUser then some ({ s with wheel := cancel N s.wheel n }.log (.cancel n)) else none
  | .tick =>
    match s.phase with
    | .idle => some ({ s with wheel := startTick N s.wheel, phase := .draining }.log .tick)
    | _ => none
  | .dispatch =>
    match s.phase with
    | .draining => dispatch callable s
    | _ => none
  | .callbackReturn =>
    match s.phase with
    | .calling _ => some { s with phase := .draining }
    | _ => none
  | .refill =>
    match s.phase with
    | .refilling => refill s
    | _ => none

/-- What a step with each label is, and the phase it is taken in. -/
inductive StepsTo (N : NumSlots w) (callable : ι → Bool) (s : Session w ι) :
    Label ι → Session w ι → Prop
  | schedule (n : ι) (d : BitVec 32) (huser : s.phase.isUser = true) :
    StepsTo N callable s (.schedule n d)
      ({ s with wheel := (schedule N callable s.wheel n d).2 }.log
        (.schedule n d (schedule N callable s.wheel n d).1))
  | cancel (n : ι) (huser : s.phase.isUser = true) :
    StepsTo N callable s (.cancel n) ({ s with wheel := cancel N s.wheel n }.log (.cancel n))
  | tick (hidle : s.phase = .idle) :
    StepsTo N callable s .tick ({ s with wheel := startTick N s.wheel, phase := .draining }.log .tick)
  | dispatch {t : Session w ι} (hdraining : s.phase = .draining)
    (hdispatch : TimerWheel.dispatch callable s = some t) : StepsTo N callable s .dispatch t
  | callbackReturn (n : ι) (hcalling : s.phase = .calling n) :
    StepsTo N callable s .callbackReturn { s with phase := .draining }
  | refill {t : Session w ι} (hrefilling : s.phase = .refilling)
    (hrefill : TimerWheel.refill s = some t) : StepsTo N callable s .refill t

/-- **What a step does.** -/
theorem stepsTo {N : NumSlots w} {callable : ι → Bool} {s t : Session w ι} {a : Label ι}
    (hstep : step N callable s a = some t) : StepsTo N callable s a t := by
  cases a with
  | schedule n d =>
    by_cases huser : s.phase.isUser = true
    · obtain rfl := Option.some.inj ((if_pos huser).symm.trans hstep)
      exact .schedule n d huser
    · cases (if_neg huser).symm.trans hstep
  | cancel n =>
    by_cases huser : s.phase.isUser = true
    · obtain rfl := Option.some.inj ((if_pos huser).symm.trans hstep)
      exact .cancel n huser
    · cases (if_neg huser).symm.trans hstep
  | tick =>
    cases hphase : s.phase with
    | idle =>
      simp only [step, hphase, Option.some.injEq] at hstep
      subst hstep
      exact .tick hphase
    | _ => simp only [step, hphase, reduceCtorEq] at hstep
  | dispatch =>
    cases hphase : s.phase with
    | draining =>
      simp only [step, hphase] at hstep
      exact .dispatch hphase hstep
    | _ => simp only [step, hphase, reduceCtorEq] at hstep
  | callbackReturn =>
    cases hphase : s.phase with
    | calling n =>
      simp only [step, hphase, Option.some.injEq] at hstep
      subst hstep
      exact .callbackReturn n hphase
    | _ => simp only [step, hphase, reduceCtorEq] at hstep
  | refill =>
    cases hphase : s.phase with
    | refilling =>
      simp only [step, hphase] at hstep
      exact .refill hphase hstep
    | _ => simp only [step, hphase, reduceCtorEq] at hstep

omit [DecidableEq ι] in
/-- A wheel without timers after `T` ticks. -/
def started (N : NumSlots w) (ι : Type*) (T : ℕ) : Session w ι where
  wheel :=
    { hooks := ⟨id, id⟩
      deadline := fun _ => 0
      currentSlot := BitVec.ofNat w (T % N.cap)
      tickCount := BitVec.ofNat 32 T }
  phase := .idle
  trace := []

end TimerWheel

end Memkit
