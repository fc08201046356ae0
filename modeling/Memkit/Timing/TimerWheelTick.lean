import Mathlib.Data.BitVec
import Mathlib.Logic.Relation
import Memkit.Timing.TimerWheelDeadlines

/-! # One tick of the timer wheel

The first loop of `dispatch_bucket` runs until the bucket is empty, and the callbacks that it invokes
may fill the bucket again. A callback is any program that makes finitely many calls and returns.

* **`Running`** — a tick in progress, with the calls that the callback has still to make.
* **`Spares`** — a call does not file a node that is due at once in the bucket that is dispatched.
  A deadline that does not wrap is later than the tick.
* **`tick_finishes`** — if every call of the callbacks spares the bucket, the tick finishes and
  invokes no callback twice. The number of nodes in the bucket that are due falls with every callback
  and does not rise; between callbacks the bucket gets shorter.
* **`not_finishes_of_wraps`** — a callback that files its node so is invoked for ever. -/

namespace Memkit

namespace TimerWheel

open Transition Relation

variable {w : ℕ} {ι : Type*} [DecidableEq ι]

/-- A call of a callback on the wheel. -/
inductive UserCall (ι : Type*)
  | schedule (node : ι) (delayTicks : BitVec 32)
  | cancel (node : ι)
  deriving DecidableEq, Repr

/-- The step of a call. -/
def UserCall.label : UserCall ι → Label ι
  | .schedule n d => .schedule n d
  | .cancel n => .cancel n

/-- What the callbacks do: the calls that the callback of a node makes, in the state in which it is
invoked. -/
abbrev Callbacks (w : ℕ) (ι : Type*) : Type _ := ι → Session w ι → List (UserCall ι)

/-- A tick in progress, and the calls that the running callback has still to make. -/
structure Running (w : ℕ) (ι : Type*) where
  session : Session w ι
  calls : List (UserCall ι)

/-- The calls that are to be made after a round of the first loop. -/
def callsOf (callbacks : Callbacks w ι) (s : Session w ι) : List (UserCall ι) :=
  match s.phase with
  | .calling n => callbacks n s
  | _ => []

/-- The next step of a tick in progress; there is none when it has finished. -/
def advance (N : NumSlots w) (callable : ι → Bool) (callbacks : Callbacks w ι) (p : Running w ι) :
    Option (Running w ι) :=
  match p.session.phase, p.calls with
  | .idle, _ => none
  | .draining, _ =>
    (step N callable p.session .dispatch).map fun s => ⟨s, callsOf callbacks s⟩
  | .calling _, c :: cs => (step N callable p.session c.label).map fun s => ⟨s, cs⟩
  | .calling _, [] => (step N callable p.session .callbackReturn).map fun s => ⟨s, []⟩
  | .refilling, _ => (step N callable p.session .refill).map fun s => ⟨s, []⟩

/-- The tick gets from one state to another. -/
def Reaches (N : NumSlots w) (callable : ι → Bool) (callbacks : Callbacks w ι) :
    Running w ι → Running w ι → Prop :=
  ReflTransGen fun p q => advance N callable callbacks p = some q

/-- A call does not file a node in the bucket that is dispatched with a deadline that is not later
than the tick. -/
def Spares (N : NumSlots w) (callable : ι → Bool) (s : Session w ι) : UserCall ι → Prop
  | .schedule n d =>
    (schedule N callable s.wheel n d).1 = .ok →
      slotOf N (s.wheel.tickCount + d) = s.wheel.currentSlot.toNat →
      s.wheel.tickCount < s.wheel.tickCount + d
  | .cancel _ => True

/-- Every call that the callbacks make in the tick spares the bucket. -/
def EveryCallSpares (N : NumSlots w) (callable : ι → Bool) (callbacks : Callbacks w ι)
    (p : Running w ι) : Prop :=
  ∀ q c cs, Reaches N callable callbacks p q → q.calls = c :: cs → Spares N callable q.session c

/-! ## The nodes that are due -/

variable {N : NumSlots w} {callable : ι → Bool} {callbacks : Callbacks w ι} {s t : Session w ι}
  {p q : Running w ι} {lists lists' : ListHead → List ι} {n m : ι} {ns : List ι}

/-- The nodes in the bucket that is dispatched whose deadline is not later than the tick. -/
def dueNodes (s : Session w ι) (lists : ListHead → List ι) : Finset ι :=
  ((lists (.bucket s.wheel.currentSlot.toNat)).filter fun n =>
    s.wheel.deadline n ≤ s.wheel.tickCount).toFinset

theorem mem_dueNodes : n ∈ dueNodes s lists ↔
    n ∈ lists (.bucket s.wheel.currentSlot.toNat) ∧ s.wheel.deadline n ≤ s.wheel.tickCount := by
  rw [dueNodes, List.mem_toFinset, List.mem_filter, decide_eq_true_eq]

/-- The wheel is at the same tick. -/
structure SameTick (s t : Session w ι) : Prop where
  slot : t.wheel.currentSlot = s.wheel.currentSlot
  count : t.wheel.tickCount = s.wheel.tickCount

omit [DecidableEq ι] in
theorem SameTick.trans {u : Session w ι} (h : SameTick s t) (h' : SameTick t u) : SameTick s u :=
  ⟨h'.slot.trans h.slot, h'.count.trans h.count⟩

/-- `schedule` is refused, or files a node that was on no list. -/
theorem schedule_cases (N : NumSlots w) (callable : ι → Bool) {wheel : TimerWheel w ι}
    (hl : Layout wheel.hooks lists) (n : ι) (d : BitVec 32) :
    schedule N callable wheel n d = (.invalid, wheel) ∨
      (∀ l, n ∉ lists l) ∧ schedule N callable wheel n d =
        (.ok,
          { wheel with
            deadline := Function.update wheel.deadline n (wheel.tickCount + d)
            hooks := wheel.hooks.pushBack
              (.sentinel (.bucket (slotOf N (wheel.tickCount + d)))) (.node n) }) := by
  unfold schedule
  by_cases hd : d = 0
  · exact .inl (if_pos hd)
  rw [if_neg hd]
  by_cases hcall : callable n = false
  · exact .inl (if_pos hcall)
  rw [if_neg hcall]
  by_cases hlinked : wheel.hooks.isLinked (.node n) = true
  · exact .inl (if_pos hlinked)
  · refine .inr ⟨fun l hn => hlinked (hl.isLinked_iff.mpr ⟨l, hn⟩), ?_⟩
    rw [if_neg hlinked]

/-- `cancel` takes a node off its list, if it is on one. -/
theorem cancel_cases {wheel : TimerWheel w ι} (hl : Layout wheel.hooks lists) (n : ι) :
    cancel N wheel n = wheel ∨
      ∃ l, n ∈ lists l ∧ cancel N wheel n =
        { wheel with
          hooks := wheel.hooks.erase (.node n)
          deadline := Function.update wheel.deadline n 0 } := by
  unfold cancel
  by_cases hlinked : wheel.hooks.isLinked (.node n) = true
  · obtain ⟨l, hn⟩ := hl.isLinked_iff.mp hlinked
    refine .inr ⟨l, hn, ?_⟩
    rw [if_pos hlinked, cancel_hooks]
  · exact .inl (if_neg hlinked)

/-- A call that user code makes. -/
theorem step_schedule (N : NumSlots w) (callable : ι → Bool) (huser : s.phase.isUser = true)
    (n : ι) (d : BitVec 32) :
    step N callable s (UserCall.schedule n d).label =
      some (({ s with wheel := (schedule N callable s.wheel n d).2 }).log
        (.schedule n d (schedule N callable s.wheel n d).1)) := if_pos huser

theorem step_cancel (N : NumSlots w) (callable : ι → Bool) (huser : s.phase.isUser = true) (n : ι) :
    step N callable s (UserCall.cancel n).label =
      some (({ s with wheel := cancel N s.wheel n }).log (.cancel n)) := if_pos huser

/-- A call that spares the bucket makes no node due. -/
theorem step_userCall {c : UserCall ι} (hl : Layout s.wheel.hooks lists)
    (hphase : s.phase = .calling m) (hspares : Spares N callable s c) :
    ∃ t lists', step N callable s c.label = some t ∧ Layout t.wheel.hooks lists' ∧
      t.phase = .calling m ∧ SameTick s t ∧ dueNodes t lists' ⊆ dueNodes s lists ∧
      ∃ e, t.trace = s.trace ++ [e] ∧ ∀ n, e ≠ .fire n := by
  have huser : s.phase.isUser = true := by
    rw [hphase]
    rfl
  cases c with
  | schedule n d =>
    have hstep := step_schedule N callable huser n d
    -- a refused scheduling leaves the wheel, an accepted one must not add to the nodes that are due
    rcases schedule_cases N callable hl n d with hsame | ⟨hfree, hok⟩
    · rw [hsame] at hstep
      exact ⟨_, lists, hstep, hl, hphase, ⟨rfl, rfl⟩, fun _ h => h, _, rfl, nofun⟩
    · have hlater := hspares (by rw [hok])
      rw [hok] at hstep
      refine ⟨_, _, hstep, hl.pushBack hfree _, hphase, ⟨rfl, rfl⟩, ?_, _, rfl, nofun⟩
      intro k hk
      rw [mem_dueNodes] at hk ⊢
      obtain ⟨hmem, hdue⟩ := hk
      rcases Layout.mem_pushed.mp hmem with hold | ⟨rfl, hbucket⟩
      · have hne : k ≠ n := by
          rintro rfl
          exact hfree _ hold
        refine ⟨hold, ?_⟩
        have hkeep : Function.update s.wheel.deadline n (s.wheel.tickCount + d) k =
            s.wheel.deadline k := Function.update_of_ne hne _ _
        exact hkeep ▸ hdue
      · -- the node is filed in this bucket, but it is not due
        have hnew : Function.update s.wheel.deadline k (s.wheel.tickCount + d) k =
            s.wheel.tickCount + d := Function.update_self _ _ _
        have hle : s.wheel.tickCount + d ≤ s.wheel.tickCount := hnew ▸ hdue
        exact absurd hle (BitVec.not_le.mpr (hlater (ListHead.bucket.inj hbucket).symm))
  | cancel n =>
    have hstep := step_cancel N callable huser n
    -- a node that is taken off no longer counts as due
    rcases cancel_cases (N := N) hl n with hsame | ⟨l, hn, hcancel⟩
    · rw [hsame] at hstep
      exact ⟨_, lists, hstep, hl, hphase, ⟨rfl, rfl⟩, fun _ h => h, _, rfl, nofun⟩
    · rw [hcancel] at hstep
      refine ⟨_, _, hstep, hl.erase hn, hphase, ⟨rfl, rfl⟩, ?_, _, rfl, nofun⟩
      intro k hk
      rw [mem_dueNodes] at hk ⊢
      obtain ⟨hmem, hdue⟩ := hk
      obtain ⟨hold, hne⟩ := (hl.mem_erased hn).mp hmem
      have hkeep : Function.update s.wheel.deadline n 0 k = s.wheel.deadline k :=
        Function.update_of_ne hne _ _
      exact ⟨hold, hkeep ▸ hdue⟩

/-! ## The loops -/

/-- The rest of a tick whose calls spare the bucket. -/
theorem EveryCallSpares.mono (h : EveryCallSpares N callable callbacks p)
    (hreach : Reaches N callable callbacks p q) : EveryCallSpares N callable callbacks q :=
  fun _ _ _ hreach' => h _ _ _ (hreach.trans hreach')

/-- The steps of a tick, by what the tick is at. -/
theorem advance_draining (hphase : p.session.phase = .draining) :
    advance N callable callbacks p =
      (dispatch callable p.session).map fun s => ⟨s, callsOf callbacks s⟩ := by
  simp only [advance, hphase, step]

theorem advance_call {c : UserCall ι} {cs : List (UserCall ι)}
    (hphase : p.session.phase = .calling m) (hcalls : p.calls = c :: cs) :
    advance N callable callbacks p =
      (step N callable p.session c.label).map fun s => ⟨s, cs⟩ := by
  simp only [advance, hphase, hcalls]

theorem advance_return (N : NumSlots w) (callable : ι → Bool) (callbacks : Callbacks w ι)
    (hphase : p.session.phase = .calling m) (hcalls : p.calls = []) :
    advance N callable callbacks p = some ⟨{ p.session with phase := .draining }, []⟩ := by
  simp only [advance, hphase, hcalls, step, Option.map_some]

theorem advance_refilling (hphase : p.session.phase = .refilling) :
    advance N callable callbacks p = (refill p.session).map fun s => ⟨s, []⟩ := by
  simp only [advance, hphase, step]

/-- **A callback returns** after its calls. No node has become due, and none was invoked. -/
theorem callback_returns (hl : Layout p.session.wheel.hooks lists)
    (hphase : p.session.phase = .calling m) (hspares : EveryCallSpares N callable callbacks p) :
    ∃ q lists', Reaches N callable callbacks p q ∧ Layout q.session.wheel.hooks lists' ∧
      q.session.phase = .draining ∧ SameTick p.session q.session ∧
      dueNodes q.session lists' ⊆ dueNodes p.session lists ∧
      ∃ events, q.session.trace = p.session.trace ++ events ∧ ∀ n, .fire n ∉ events := by
  induction hcalls : p.calls generalizing p lists with
  | nil =>
    have hreturn := advance_return N callable callbacks hphase hcalls
    exact ⟨_, lists, .single hreturn, hl, rfl, ⟨rfl, rfl⟩, fun _ h => h, [],
      (List.append_nil _).symm, fun _ => List.not_mem_nil⟩
  | cons c calls ih =>
    obtain ⟨t, lists', hstep, hl', hphase', hsame, hsub, e, htrace, he⟩ :=
      step_userCall hl hphase (hspares _ c calls .refl hcalls)
    have hadvance : advance N callable callbacks p = some ⟨t, calls⟩ := by
      rw [advance_call hphase hcalls, hstep, Option.map_some]
    obtain ⟨q, lists'', hreach, hl'', hdraining, hsame', hsub', events, htrace', hevents⟩ :=
      ih hl' hphase' (hspares.mono (.single hadvance)) rfl
    refine ⟨q, lists'', .head hadvance hreach, hl'', hdraining, hsame.trans hsame',
      hsub'.trans hsub, e :: events, ?_, fun n hn => ?_⟩
    · rw [htrace', htrace, List.append_assoc, List.singleton_append]
    · rcases List.mem_cons.mp hn with heq | hn
      · exact he n heq.symm
      · exact hevents n hn

/-- The nodes that are due when one is taken off the bucket. -/
theorem mem_dueNodes_takeOff (hl : Layout s.wheel.hooks lists)
    (hn : n ∈ lists (.bucket s.wheel.currentSlot.toNat)) {k : ι} :
    (k ∈ takeOff lists (.bucket s.wheel.currentSlot.toNat) n (.bucket s.wheel.currentSlot.toNat) ∧
        s.wheel.deadline k ≤ s.wheel.tickCount) ↔
      k ∈ (dueNodes s lists).erase n := by
  rw [Finset.mem_erase, mem_dueNodes, hl.mem_erased hn]
  constructor
  · rintro ⟨⟨hk, hne⟩, hdue⟩
    exact ⟨hne, hk, hdue⟩
  · rintro ⟨hne, hk, hdue⟩
    exact ⟨⟨hk, hne⟩, hdue⟩

/-- **A round of the first loop** takes the front off the bucket, and invokes its callback if it is
due. -/
theorem draining_round (callbacks : Callbacks w ι) (hl : Layout p.session.wheel.hooks lists)
    (hphase : p.session.phase = .draining)
    (hbucket : lists (.bucket p.session.wheel.currentSlot.toNat) = n :: ns) :
    ∃ r lists', advance N callable callbacks p = some r ∧ Layout r.session.wheel.hooks lists' ∧
      dueNodes r.session lists' = (dueNodes p.session lists).erase n ∧
      (n ∈ dueNodes p.session lists ∧ r.session.phase = .calling n ∧
          r.session.trace = p.session.trace ++ [.fire n] ∨
        r.session.phase = .draining ∧ r.session.trace = p.session.trace ∧
          lists' (.bucket r.session.wheel.currentSlot.toNat) = ns) := by
  have hn : n ∈ lists (.bucket p.session.wheel.currentSlot.toNat) := by
    rw [hbucket]
    exact List.mem_cons_self
  have hrest : takeOff lists (.bucket p.session.wheel.currentSlot.toNat) n
      (.bucket p.session.wheel.currentSlot.toNat) = ns := by
    rw [takeOff, Function.update_self, hbucket, List.erase_cons_head]
  have hadvance : advance N callable callbacks p =
      some ⟨examine callable p.session n, callsOf callbacks (examine callable p.session n)⟩ := by
    rw [advance_draining hphase, dispatch_cons hl hbucket, Option.map_some]
  by_cases hle : p.session.wheel.deadline n ≤ p.session.wheel.tickCount
  · by_cases hcall : callable n = true
    · rw [examine_due hle hcall] at hadvance
      refine ⟨_, _, hadvance, hl.erase hn, ?_, .inl ⟨mem_dueNodes.mpr ⟨hn, hle⟩, rfl, rfl⟩⟩
      ext k
      exact mem_dueNodes.trans (mem_dueNodes_takeOff hl hn)
    · -- without a callback the node is dropped
      have hexamine : examine callable p.session n =
          { p.session with wheel.hooks := p.session.wheel.hooks.erase (.node n) } := by
        simp only [examine, if_pos hle, if_neg hcall]
      rw [hexamine] at hadvance
      refine ⟨_, _, hadvance, hl.erase hn, ?_, .inr ⟨hphase, rfl, hrest⟩⟩
      ext k
      exact mem_dueNodes.trans (mem_dueNodes_takeOff hl hn)
  · rw [examine_not_due hle] at hadvance
    have hother : ∀ slot, putOn (takeOff lists (.bucket p.session.wheel.currentSlot.toNat) n)
        .pending n (.bucket slot) =
        takeOff lists (.bucket p.session.wheel.currentSlot.toNat) n (.bucket slot) :=
      fun slot => Function.update_of_ne (by rintro ⟨⟩) _ _
    have hnot : n ∉ dueNodes p.session lists := fun hmem => hle (mem_dueNodes.mp hmem).2
    refine ⟨_, _, hadvance, hl.move hn .pending, ?_, .inr ⟨hphase, rfl, (hother _).trans hrest⟩⟩
    ext k
    refine mem_dueNodes.trans (Iff.trans ?_ (mem_dueNodes_takeOff hl hn))
    dsimp only
    rw [hother]

/-- **The first loop ends.** Each callback is invoked once at most, and only if its node was due. -/
theorem draining_ends (hl : Layout p.session.wheel.hooks lists)
    (hphase : p.session.phase = .draining) (hspares : EveryCallSpares N callable callbacks p) :
    ∃ q lists', Reaches N callable callbacks p q ∧ Layout q.session.wheel.hooks lists' ∧
      q.session.phase = .refilling ∧
      ∃ events, q.session.trace = p.session.trace ++ events ∧
        ∀ n, events.count (.fire n) ≤ if n ∈ dueNodes p.session lists then 1 else 0 := by
  -- on the number of nodes that are due, and on the bucket between two callbacks
  induction hdue : (dueNodes p.session lists).card using Nat.strong_induction_on
    generalizing p lists with
  | _ due ihdue =>
  induction hbucket : lists (.bucket p.session.wheel.currentSlot.toNat)
    generalizing p lists with
  | nil =>
    have hadvance : advance N callable callbacks p =
        some ⟨{ p.session with phase := .refilling }, []⟩ := by
      rw [advance_draining hphase, dispatch_nil hl hbucket]
      rfl
    refine ⟨_, lists, .single hadvance, hl, rfl, [], (List.append_nil _).symm, fun n => ?_⟩
    exact Nat.zero_le _
  | cons n ns ihbucket =>
    obtain ⟨r, lists₁, hadvance, hl₁, herase, hround⟩ := draining_round callbacks hl hphase hbucket
    have hspares₁ := hspares.mono (.single hadvance)
    rcases hround with ⟨hmem, hcalling, htrace⟩ | ⟨hphase₁, htrace, hrest⟩
    · obtain ⟨u, lists₂, hreach, hl₂, hphase₂, -, hsub, events, htrace₂, hnofire⟩ :=
        callback_returns hl₁ hcalling hspares₁
      rw [herase] at hsub
      have hcard := (Finset.card_le_card hsub).trans_lt (Finset.card_erase_lt_of_mem hmem)
      obtain ⟨q, lists₃, hreach₃, hl₃, hphase₃, events₃, htrace₃, hcount⟩ :=
        ihdue _ (hdue ▸ hcard) hl₂ hphase₂ (hspares₁.mono hreach) rfl
      refine ⟨q, lists₃, .head hadvance (hreach.trans hreach₃), hl₃, hphase₃,
        .fire n :: (events ++ events₃), ?_, fun k => ?_⟩
      · rw [htrace₃, htrace₂, htrace]
        simp only [List.append_assoc, List.cons_append, List.nil_append]
      · rw [List.count_cons, List.count_append, List.count_eq_zero_of_not_mem (hnofire k),
          Nat.zero_add]
        have hlater := hcount k
        by_cases hk : k ∈ dueNodes u.session lists₂
        · -- another node
          obtain ⟨hne, hk'⟩ := Finset.mem_erase.mp (hsub hk)
          have hfire : ¬ TimerEvent.fire n = TimerEvent.fire k := fun heq =>
            hne (TimerEvent.fire.inj heq).symm
          rw [if_pos hk] at hlater
          rw [if_pos hk', if_neg (by rwa [beq_iff_eq])]
          exact hlater
        · rw [if_neg hk] at hlater
          rw [Nat.le_zero.mp hlater, Nat.zero_add]
          by_cases hfire : TimerEvent.fire n = TimerEvent.fire k
          · rw [if_pos (by rwa [beq_iff_eq]), ← TimerEvent.fire.inj hfire, if_pos hmem]
          · rw [if_neg (by rwa [beq_iff_eq])]
            exact Nat.zero_le _
    · have hsub : dueNodes r.session lists₁ ⊆ dueNodes p.session lists := by
        rw [herase]
        exact Finset.erase_subset n _
      have hends : ∃ q lists₂, Reaches N callable callbacks r q ∧
          Layout q.session.wheel.hooks lists₂ ∧ q.session.phase = .refilling ∧
          ∃ events, q.session.trace = r.session.trace ++ events ∧
            ∀ n, events.count (.fire n) ≤ if n ∈ dueNodes r.session lists₁ then 1 else 0 := by
        rcases Nat.lt_or_eq_of_le (Finset.card_le_card hsub) with hlt | heq
        · exact ihdue _ (hdue ▸ hlt) hl₁ hphase₁ hspares₁ rfl
        · exact ihbucket hl₁ hphase₁ hspares₁ (heq.trans hdue) hrest
      obtain ⟨q, lists₂, hreach, hl₂, hphase₂, events, htrace₂, hcount⟩ := hends
      refine ⟨q, lists₂, .head hadvance hreach, hl₂, hphase₂, events, ?_, fun k => ?_⟩
      · rw [htrace₂, htrace]
      · refine (hcount k).trans ?_
        by_cases hk : k ∈ dueNodes r.session lists₁
        · rw [if_pos hk, if_pos (hsub hk)]
        · rw [if_neg hk]
          exact Nat.zero_le _

/-- **The second loop ends**: each round shortens `pending`. -/
theorem refilling_ends (N : NumSlots w) (callable : ι → Bool) (callbacks : Callbacks w ι)
    (hl : Layout p.session.wheel.hooks lists)
    (hphase : p.session.phase = .refilling) :
    ∃ q, Reaches N callable callbacks p q ∧ q.session.phase = .idle ∧
      q.session.trace = p.session.trace ++ [.tickEnd] := by
  induction hpending : lists .pending generalizing p lists with
  | nil =>
    have hend : advance N callable callbacks p =
        some ⟨{ p.session with phase := .idle }.log .tickEnd, []⟩ := by
      rw [advance_refilling hphase, refill_nil hl hpending, Option.map_some]
    exact ⟨_, .single hend, rfl, rfl⟩
  | cons n ns ih =>
    have hadvance : advance N callable callbacks p = some ⟨putBack p.session n, []⟩ := by
      rw [advance_refilling hphase, refill_cons hl hpending, Option.map_some]
    have hn : n ∈ lists .pending := by
      rw [hpending]
      exact List.mem_cons_self
    have hrest : putOn (takeOff lists .pending n) (.bucket p.session.wheel.currentSlot.toNat) n
        .pending = ns := by
      rw [putOn, Function.update_of_ne (by rintro ⟨⟩), takeOff, Function.update_self, hpending,
        List.erase_cons_head]
    obtain ⟨q, hreach, hidle, htrace⟩ := ih (p := ⟨putBack p.session n, []⟩)
      (hl.move hn (.bucket p.session.wheel.currentSlot.toNat)) hphase hrest
    exact ⟨q, .head hadvance hreach, hidle, htrace⟩

/-! ## Deadlines that do not wrap -/

/-- The deadline of the call does not wrap at a tick count. -/
def UserCall.Fits (T : BitVec 32) : UserCall ι → Prop
  | .schedule _ d => T.toNat + d.toNat < 2 ^ 32
  | .cancel _ => True

theorem Spares.of_fits {c : UserCall ι} (hfits : c.Fits s.wheel.tickCount) :
    Spares N callable s c := by
  cases c with
  | schedule n d =>
    intro hok _
    have hdelay : d ≠ 0 := by
      rintro rfl
      rw [schedule, if_pos rfl] at hok
      exact nomatch hok
    have hpos : 0 < d.toNat := Nat.pos_of_ne_zero fun h => hdelay (BitVec.eq_of_toNat_eq h)
    rw [BitVec.lt_def, BitVec.toNat_add, Nat.mod_eq_of_lt hfits]
    omega
  | cancel n => exact trivial

theorem schedule_tickCount (N : NumSlots w) (callable : ι → Bool) (wheel : TimerWheel w ι) (n : ι)
    (d : BitVec 32) : (schedule N callable wheel n d).2.tickCount = wheel.tickCount := by
  unfold schedule
  split_ifs <;> rfl

theorem cancel_tickCount (N : NumSlots w) (wheel : TimerWheel w ι) (n : ι) :
    (cancel N wheel n).tickCount = wheel.tickCount := by
  unfold cancel
  split_ifs <;> rfl

theorem examine_tickCount (callable : ι → Bool) (s : Session w ι) (n : ι) :
    (examine callable s n).wheel.tickCount = s.wheel.tickCount := by
  simp only [examine]
  split_ifs <;> rfl

/-- A tick counts once, at its beginning. -/
theorem advance_tickCount (hadvance : advance N callable callbacks p = some q) :
    q.session.wheel.tickCount = p.session.wheel.tickCount ∧
      ∀ c ∈ q.calls, c ∈ p.calls ∨ c ∈ callsOf callbacks q.session := by
  cases hphase : p.session.phase with
  | idle => simp only [advance, hphase, reduceCtorEq] at hadvance
  | draining =>
    rw [advance_draining hphase] at hadvance
    obtain ⟨s, hs, rfl⟩ := Option.map_eq_some_iff.mp hadvance
    -- dispatching takes a node, whose calls are then the ones to come
    refine ⟨?_, fun c hc => .inr hc⟩
    unfold dispatch at hs
    split at hs
    · obtain rfl := Option.some.inj hs
      rfl
    · split at hs
      · cases hs
      · obtain rfl := Option.some.inj hs
        exact examine_tickCount _ _ _
  | calling n =>
    cases hcalls : p.calls with
    | nil =>
      have hreturn := advance_return N callable callbacks hphase hcalls
      obtain rfl := Option.some.inj (hreturn.symm.trans hadvance)
      exact ⟨rfl, by rintro _ ⟨⟩⟩
    | cons c cs =>
      have huser : p.session.phase.isUser = true := by
        rw [hphase]
        rfl
      rw [advance_call hphase hcalls] at hadvance
      obtain ⟨s, hs, rfl⟩ := Option.map_eq_some_iff.mp hadvance
      -- the first of the calls is made, the others wait
      refine ⟨?_, fun d hd => .inl (List.mem_cons_of_mem c hd)⟩
      cases c with
      | schedule m d =>
        obtain rfl := Option.some.inj ((step_schedule N callable huser m d).symm.trans hs)
        exact schedule_tickCount _ _ _ _ _
      | cancel m =>
        obtain rfl := Option.some.inj ((step_cancel N callable huser m).symm.trans hs)
        exact cancel_tickCount _ _ _
  | refilling =>
    rw [advance_refilling hphase] at hadvance
    obtain ⟨s, hs, rfl⟩ := Option.map_eq_some_iff.mp hadvance
    refine ⟨?_, by rintro _ ⟨⟩⟩
    unfold refill at hs
    split at hs
    · obtain rfl := Option.some.inj hs
      rfl
    · split at hs
      · cases hs
      · obtain rfl := Option.some.inj hs
        rfl

/-- Callbacks whose deadlines do not wrap spare the bucket. -/
theorem EveryCallSpares.of_fits (hcalls : p.calls = [])
    (hfits : ∀ s, s.wheel.tickCount = p.session.wheel.tickCount →
      ∀ c ∈ callsOf callbacks s, c.Fits p.session.wheel.tickCount) :
    EveryCallSpares N callable callbacks p := by
  have hinv : ∀ q, Reaches N callable callbacks p q →
      q.session.wheel.tickCount = p.session.wheel.tickCount ∧
        ∀ c ∈ q.calls, c.Fits p.session.wheel.tickCount := by
    intro q hq
    induction hq with
    | refl =>
      rw [hcalls]
      exact ⟨rfl, nofun⟩
    | tail _ hstep ih =>
      obtain ⟨hcount, hmade⟩ := advance_tickCount hstep
      refine ⟨hcount.trans ih.1, fun c hc => ?_⟩
      rcases hmade c hc with hold | hnew
      · exact ih.2 c hold
      · exact hfits _ (hcount.trans ih.1) c hnew
  intro q c cs hq hcs
  obtain ⟨hcount, hall⟩ := hinv q hq
  refine .of_fits ?_
  rw [hcount]
  exact hall c (hcs ▸ List.mem_cons_self)

/-! ## A whole tick -/

/-- A tick that has begun. -/
def beginTick (N : NumSlots w) (s : Session w ι) : Running w ι :=
  ⟨{ s with wheel := startTick N s.wheel, phase := .draining }.log .tick, []⟩

theorem step_tick (hidle : s.phase = .idle) :
    step N callable s .tick = some (beginTick N s).session := by
  simp only [step, hidle, beginTick]

/-- The links spell lists out, and `pending` is empty between ticks. -/
def Linked (s : Session w ι) : Prop :=
  ∃ lists, Layout s.wheel.hooks lists ∧ (s.phase = .idle → lists .pending = [])

/-- A call keeps `pending` empty between ticks. -/
theorem Linked.userCall (h : Linked s) (c : UserCall ι) (hstep : step N callable s c.label = some t) :
    Linked t := by
  obtain ⟨lists, hl, hpending⟩ := h
  by_cases huser : s.phase.isUser = true
  swap
  · cases c <;> cases (if_neg huser).symm.trans hstep
  cases c with
  | schedule n d =>
    obtain rfl := Option.some.inj ((step_schedule N callable huser n d).symm.trans hstep)
    rcases schedule_cases N callable hl n d with hsame | ⟨hfree, hok⟩
    · rw [hsame]
      exact ⟨lists, hl, hpending⟩
    · rw [hok]
      refine ⟨_, hl.pushBack hfree _, fun hidle => ?_⟩
      rw [putOn, Function.update_of_ne (by rintro ⟨⟩)]
      exact hpending hidle
  | cancel n =>
    obtain rfl := Option.some.inj ((step_cancel N callable huser n).symm.trans hstep)
    rcases cancel_cases (N := N) hl n with hsame | ⟨l, hn, hcancel⟩
    · rw [hsame]
      exact ⟨lists, hl, hpending⟩
    · rw [hcancel]
      refine ⟨_, hl.erase hn, fun hidle => ?_⟩
      have hnil := hpending hidle
      have hne : l ≠ .pending := by
        rintro rfl
        rw [hnil] at hn
        exact absurd hn List.not_mem_nil
      rw [takeOff, Function.update_of_ne hne.symm]
      exact hnil

/-- Every step keeps the lists. -/
theorem Linked.step (h : Linked s) {a : Label ι} (hstep : step N callable s a = some t) :
    Linked t := by
  cases stepsTo hstep with
  | schedule n d _ => exact h.userCall (.schedule n d) hstep
  | cancel n _ => exact h.userCall (.cancel n) hstep
  | tick hidle =>
    obtain ⟨lists, hl, hpending⟩ := h
    exact ⟨lists, hl.init_sentinel (hpending hidle), by rintro ⟨⟩⟩
  | dispatch hdraining hdispatch =>
    obtain ⟨lists, hl, -⟩ := h
    cases hbucket : lists (.bucket s.wheel.currentSlot.toNat) with
    | nil =>
      obtain rfl := Option.some.inj ((dispatch_nil hl hbucket).symm.trans hdispatch)
      exact ⟨lists, hl, by rintro ⟨⟩⟩
    | cons n ns =>
      obtain rfl := Option.some.inj ((dispatch_cons hl hbucket).symm.trans hdispatch)
      obtain ⟨lists', hl', -⟩ := examine_rest callable hl hbucket
      refine ⟨lists', hl', fun hidle => ?_⟩
      -- the phase is still that of the tick
      rcases (examine_frame callable s n).2 with hcalling | hsame
      · cases hcalling.symm.trans hidle
      · cases (hsame.trans hdraining).symm.trans hidle
  | callbackReturn n _ =>
    obtain ⟨lists, hl, -⟩ := h
    exact ⟨lists, hl, by rintro ⟨⟩⟩
  | refill hrefilling hrefill =>
    obtain ⟨lists, hl, -⟩ := h
    cases hpending : lists .pending with
    | nil =>
      obtain rfl := Option.some.inj ((refill_nil hl hpending).symm.trans hrefill)
      exact ⟨lists, hl, fun _ => hpending⟩
    | cons n ns =>
      obtain rfl := Option.some.inj ((refill_cons hl hpending).symm.trans hrefill)
      have hn : n ∈ lists .pending := by
        rw [hpending]
        exact List.mem_cons_self
      exact ⟨_, hl.move hn _, fun hidle => by cases hrefilling.symm.trans hidle⟩

theorem linked_of_run {T : ℕ} {labels : List (Label ι)}
    (hrun : run (step N callable) (started N ι T) labels = some s) : Linked s :=
  run_invariant Linked (fun _ _ _ h hstep => h.step hstep) ⟨_, layout_started, fun _ => rfl⟩ hrun

/-- **A tick finishes**, on any wheel that a run leaves between ticks, if every call of the callbacks
spares the bucket; each callback has been invoked once at most. -/
theorem tick_finishes (N : NumSlots w) (callable : ι → Bool) (T : ℕ) (labels : List (Label ι))
    (s : Session w ι) (callbacks : Callbacks w ι)
    (hrun : run (step N callable) (started N ι T) labels = some s) (hidle : s.phase = .idle)
    (hspares : EveryCallSpares N callable callbacks (beginTick N s)) :
    ∃ q, Reaches N callable callbacks (beginTick N s) q ∧ q.session.phase = .idle ∧
      ∃ events, q.session.trace = s.trace ++ .tick :: events ∧
        ∀ n, events.count (.fire n) ≤ 1 := by
  obtain ⟨lists, hl, hpending⟩ := linked_of_run hrun
  obtain ⟨u, lists₁, hreach₁, hl₁, hphase₁, events, htrace₁, hcount⟩ :=
    draining_ends (p := beginTick N s) (hl.init_sentinel (hpending hidle)) rfl hspares
  obtain ⟨q, hreach, hend, htrace⟩ := refilling_ends N callable callbacks hl₁ hphase₁
  refine ⟨q, hreach₁.trans hreach, hend, events ++ [.tickEnd], ?_, fun n => ?_⟩
  · have hbegin : (beginTick N s).session.trace = s.trace ++ [.tick] := rfl
    rw [htrace, htrace₁, hbegin]
    simp only [List.append_assoc, List.cons_append, List.nil_append]
  · have htick : List.count (TimerEvent.fire n) [TimerEvent.tickEnd] = 0 :=
      List.count_eq_zero_of_not_mem (by simp)
    rw [List.count_append, htick, Nat.add_zero]
    refine (hcount n).trans ?_
    by_cases hn : n ∈ dueNodes (beginTick N s).session lists
    · rw [if_pos hn]
    · rw [if_neg hn]
      exact Nat.zero_le _

/-- A callback that schedules its node for the next tick, and cancels another. -/
theorem tick_finishes_rescheduled :
    ∃ s, run (step twoSlots fun _ => true) (started twoSlots ℕ 1) [.schedule 0 1, .schedule 1 3] =
        some s ∧
      ∃ q, Reaches twoSlots (fun _ => true) (fun n _ => [.schedule n 1, .cancel 1])
          (beginTick twoSlots s) q ∧ q.session.phase = .idle ∧
        ∃ events, q.session.trace = s.trace ++ .tick :: events ∧
          ∀ n, events.count (.fire n) ≤ 1 := by
  refine ⟨_, rfl, tick_finishes twoSlots _ 1 [.schedule 0 1, .schedule 1 3] _ _ rfl rfl ?_⟩
  refine .of_fits rfl fun s _ c hc => ?_
  cases hphase : s.phase with
  | calling n =>
    simp only [callsOf, hphase, List.mem_cons, List.not_mem_nil, or_false] at hc
    rcases hc with rfl | rfl
    · exact (by decide : (2 : ℕ) + 1 < 2 ^ 32)
    · exact trivial
  | _ =>
    simp only [callsOf, hphase, List.not_mem_nil] at hc

/-! ## A deadline that wraps into the bucket -/

/-- The steps of a tick only add to the history. -/
theorem advance_trace (hadvance : advance N callable callbacks p = some q) :
    p.session.trace <+: q.session.trace := by
  have hmap : ∀ {a : Label ι} {f : Session w ι → Running w ι}, (∀ s, (f s).session = s) →
      (step N callable p.session a).map f = some q → p.session.trace <+: q.session.trace := by
    intro a f hf hstep
    obtain ⟨s, hs, rfl⟩ := Option.map_eq_some_iff.mp hstep
    rw [hf]
    exact trace_prefix hs
  cases hphase : p.session.phase with
  | idle => simp only [advance, hphase, reduceCtorEq] at hadvance
  | draining =>
    simp only [advance, hphase] at hadvance
    exact hmap (fun _ => rfl) hadvance
  | calling n =>
    cases hcalls : p.calls with
    | nil =>
      simp only [advance, hphase, hcalls] at hadvance
      exact hmap (fun _ => rfl) hadvance
    | cons c cs =>
      simp only [advance, hphase, hcalls] at hadvance
      exact hmap (fun _ => rfl) hadvance
  | refilling =>
    simp only [advance, hphase] at hadvance
    exact hmap (fun _ => rfl) hadvance

theorem Reaches.trace_prefix (h : Reaches N callable callbacks p q) :
    p.session.trace <+: q.session.trace := by
  induction h with
  | refl => exact List.prefix_rfl
  | tail _ hstep ih => exact ih.trans (advance_trace hstep)

/-- What a tick has done when it finishes includes whatever it does on the way. -/
theorem Reaches.prefix_of_idle {r : Running w ι} (hq : Reaches N callable callbacks p q)
    (hidle : q.session.phase = .idle) (hr : Reaches N callable callbacks p r) :
    r.session.trace <+: q.session.trace := by
  have hunique : Relator.RightUnique fun p q => advance N callable callbacks p = some q :=
    fun _ _ _ h h' => Option.some.inj (h.symm.trans h')
  rcases hq.total_of_right_unique hunique hr with hqr | hrq
  · -- nothing is reached from the end of the tick
    rcases hqr.cases_head with rfl | ⟨u, hstep, -⟩
    · exact List.prefix_rfl
    · simp only [advance, hidle, reduceCtorEq] at hstep
  · exact Reaches.trace_prefix hrq

/-- The bucket that is dispatched holds one node, which is due, and the deadline after `d` more ticks
wraps into the bucket. -/
structure Refiling (N : NumSlots w) (callable : ι → Bool) (n : ι) (d : BitVec 32)
    (s : Session w ι) : Prop where
  draining : s.phase = .draining
  callable : callable n = true
  delay : d ≠ 0
  slot : slotOf N (s.wheel.tickCount + d) = s.wheel.currentSlot.toNat
  wraps : s.wheel.tickCount + d ≤ s.wheel.tickCount
  due : s.wheel.deadline n ≤ s.wheel.tickCount
  bucket : ∃ lists, Layout s.wheel.hooks lists ∧
    lists (.bucket s.wheel.currentSlot.toNat) = [n]

/-- The node is invoked, files itself in the bucket, and the loop is back where it was. -/
theorem Refiling.lap {d : BitVec 32} (h : Refiling N callable n d p.session) :
    ∃ q, Reaches N callable (fun n _ => [.schedule n d]) p q ∧ Refiling N callable n d q.session ∧
      q.session.trace = p.session.trace ++ [.fire n, .schedule n d .ok] := by
  obtain ⟨lists, hl, hbucket⟩ := h.bucket
  have hn : n ∈ lists (.bucket p.session.wheel.currentSlot.toNat) := by
    rw [hbucket]
    exact List.mem_singleton_self n
  have hl₁ := hl.erase hn
  have hfree : ∀ l, n ∉ takeOff lists (.bucket p.session.wheel.currentSlot.toNat) n l :=
    fun l hmem => ((hl.mem_erased hn).mp hmem).2 rfl
  -- the callback is invoked
  have hfire : advance N callable (fun n _ => [.schedule n d]) p =
      some ⟨examine callable p.session n, [.schedule n d]⟩ := by
    rw [advance_draining h.draining, dispatch_cons hl hbucket, Option.map_some,
      examine_due h.due h.callable]
    rfl
  rw [examine_due h.due h.callable] at hfire
  -- it schedules its node
  set s₁ : Session w ι :=
    { p.session with
      wheel.hooks := p.session.wheel.hooks.erase (.node n), phase := .calling n }.log (.fire n)
  have hok : schedule N callable s₁.wheel n d =
      (.ok,
        { s₁.wheel with
          deadline := Function.update s₁.wheel.deadline n (s₁.wheel.tickCount + d)
          hooks := s₁.wheel.hooks.pushBack
            (.sentinel (.bucket (slotOf N (s₁.wheel.tickCount + d)))) (.node n) }) := by
    have hunlinked : ¬ s₁.wheel.hooks.isLinked (.node n) = true := fun hlinked => by
      obtain ⟨l, hmem⟩ := hl₁.isLinked_iff.mp hlinked
      exact hfree l hmem
    rw [schedule, if_neg h.delay, if_neg (by rw [h.callable]; nofun), if_neg hunlinked]
  have hschedule : advance N callable (fun n _ => [.schedule n d]) ⟨s₁, [.schedule n d]⟩ =
      some ⟨({ s₁ with wheel := (schedule N callable s₁.wheel n d).2 }).log
        (.schedule n d (schedule N callable s₁.wheel n d).1), []⟩ := by
    rw [advance_call rfl rfl, step_schedule N callable rfl, Option.map_some]
  rw [hok] at hschedule
  -- and returns
  have hreturn := advance_return N callable (fun n _ => [.schedule n d])
    (p := ⟨({ s₁ with wheel := (schedule N callable s₁.wheel n d).2 }).log
      (.schedule n d (schedule N callable s₁.wheel n d).1), []⟩) (m := n) rfl rfl
  rw [hok] at hreturn
  refine ⟨_, .head hfire (.head hschedule (.single hreturn)), ?_, ?_⟩
  · have hdeadline : Function.update p.session.wheel.deadline n (p.session.wheel.tickCount + d) n =
        p.session.wheel.tickCount + d := Function.update_self _ _ _
    have hfiled : putOn (takeOff lists (.bucket p.session.wheel.currentSlot.toNat) n)
        (.bucket (slotOf N (p.session.wheel.tickCount + d))) n
        (.bucket p.session.wheel.currentSlot.toNat) = [n] := by
      rw [h.slot, putOn, Function.update_self, takeOff, Function.update_self, hbucket,
        List.erase_cons_head, List.nil_append]
    exact ⟨rfl, h.callable, h.delay, h.slot, h.wraps, hdeadline.trans_le h.wraps,
      _, hl₁.pushBack hfree _, hfiled⟩
  · exact List.append_assoc _ _ _

/-- **A callback that files its node so is invoked for ever.** -/
theorem Refiling.forever {d : BitVec 32} (h : Refiling N callable n d p.session) (k : ℕ) :
    ∃ q, Reaches N callable (fun n _ => [.schedule n d]) p q ∧
      q.session.trace.count (.fire n) = p.session.trace.count (.fire n) + k := by
  induction k generalizing p with
  | zero => exact ⟨p, .refl, rfl⟩
  | succ k ih =>
    obtain ⟨r, hr, hrefiling, htrace⟩ := h.lap
    obtain ⟨q, hq, hcount⟩ := ih hrefiling
    have hlap : List.count (.fire n) [TimerEvent.fire n, .schedule n d .ok] = 1 := by
      rw [List.count_cons_self, List.count_eq_zero_of_not_mem (by simp)]
    refine ⟨q, hr.trans hq, ?_⟩
    rw [hcount, htrace, List.count_append, hlap]
    omega

/-- The tick does not finish. -/
theorem Refiling.not_finishes {d : BitVec 32} (h : Refiling N callable n d p.session) :
    ¬ ∃ q, Reaches N callable (fun n _ => [.schedule n d]) p q ∧ q.session.phase = .idle := by
  rintro ⟨q, hq, hidle⟩
  obtain ⟨r, hr, hcount⟩ := h.forever (q.session.trace.count (.fire n) + 1)
  have hle := (hq.prefix_of_idle hidle hr).sublist.count_le (.fire n)
  omega

/-- A callback asks for a delay of `2 ^ 32 - 2` at the tick count 2, and the deadline wraps to 0. With
two slots that is the slot of the tick: the tick invokes the callback again, and does not finish. -/
theorem not_finishes_of_wraps :
    ∃ s, run (step twoSlots fun _ => true) (started twoSlots ℕ 1) [.schedule 0 1] = some s ∧
      s.phase = .idle ∧
      (¬ ∃ q, Reaches twoSlots (fun _ => true) (fun n _ => [.schedule n (2 ^ 32 - 2)])
          (beginTick twoSlots s) q ∧ q.session.phase = .idle) ∧
      ∃ q, Reaches twoSlots (fun _ => true) (fun n _ => [.schedule n (2 ^ 32 - 2)])
          (beginTick twoSlots s) q ∧ q.session.trace.count (.fire 0) = 2 := by
  refine ⟨_, rfl, rfl, ?_⟩
  set s : Session 64 ℕ := Session.log _ _
  have hfiled : Layout (startTick twoSlots s.wheel).hooks (putOn (fun _ => []) (.bucket 0) 0) :=
    (layout_started.pushBack (fun _ => List.not_mem_nil) (.bucket 0)).init_sentinel rfl
  have hslot : (beginTick twoSlots s).session.wheel.currentSlot.toNat = 0 := by decide
  have hrefiling : Refiling twoSlots (fun _ => true) 0 (2 ^ 32 - 2) (beginTick twoSlots s).session := by
    refine ⟨rfl, rfl, by decide, by decide, by decide, by decide, _, hfiled, ?_⟩
    rw [hslot]
    rfl
  exact ⟨hrefiling.not_finishes, hrefiling.forever 2⟩

end TimerWheel

end Memkit
