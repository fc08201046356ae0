import Memkit.Timing.TimerWheelTick

/-! # Moved timer wheels

The move constructor and the move assignment of `containers/timer_wheel.hpp`: the core is moved member
by member, which copies the two pointers of every sentinel, and the source is reset. The hooks of the
nodes still point to the sentinels of the source.

* **`TwoWheels`** — the hooks that both wheels share, and the other members of each. A hook of type
  `Hook (ι ⊕ ℕ)` is a sentinel of the target, a node, or the sentinel of a bucket of the source, which
  the target takes for the hook of a node.
* **`moveCore`** — the move.
* **`Stuck`** — the bucket that is dispatched never gets empty.
* **`moved_wheel_hangs`** — no tick of the target returns, whatever wheel it is moved from. -/

namespace Memkit

namespace TimerWheel

open Transition

variable {w : ℕ} {ι κ : Type*} [DecidableEq ι] [DecidableEq κ]

/-! ## The move -/

/-- The source and the target of a move. -/
structure TwoWheels (w : ℕ) (ι : Type*) where
  hooks : Hooks (Hook (ι ⊕ ℕ))
  /-- The deadlines of the nodes, and what a sentinel of the source shows in the place of one. -/
  deadline : ι ⊕ ℕ → BitVec 32
  sourceSlot : BitVec w
  sourceTicks : BitVec 32
  targetSlot : BitVec w
  targetTicks : BitVec 32

/-- A hook of the source. -/
def sourceHook : Hook ι → Hook (ι ⊕ ℕ)
  | .node n => .node (.inl n)
  | .sentinel (.bucket slot) => .node (.inr slot)
  | .sentinel .pending => .sentinel .pending

/-- A sentinel of the target takes over the pointers of one of the source. -/
def copySentinel (h : Hooks (Hook (ι ⊕ ℕ))) (slot : ℕ) : Hooks (Hook (ι ⊕ ℕ)) where
  next := Function.update h.next (.sentinel (.bucket slot)) (h.next (.node (.inr slot)))
  prev := Function.update h.prev (.sentinel (.bucket slot)) (h.prev (.node (.inr slot)))

/-- `core_ = std::move(other.core_)`, member by member, and `other.core_.reset_state()`. -/
def moveCore (N : NumSlots w) (m : TwoWheels w ι) : TwoWheels w ι where
  hooks := (List.range N.cap).foldl (fun h slot => h.init (.node (.inr slot)))
    ((List.range N.cap).foldl copySentinel m.hooks)
  deadline := m.deadline
  sourceSlot := 0
  sourceTicks := 0
  targetSlot := m.sourceSlot
  targetTicks := m.sourceTicks

/-- The target as a wheel. -/
def TwoWheels.target (m : TwoWheels w ι) : TimerWheel w (ι ⊕ ℕ) :=
  ⟨m.hooks, m.deadline, m.targetSlot, m.targetTicks⟩

/-- The source is a given wheel. Nodes that are on none of its lists, and the sentinels of the target,
may be linked in any way. -/
structure SourceIs (N : NumSlots w) (m : TwoWheels w ι) (s : TimerWheel w ι) : Prop where
  sentinel : ∀ slot < N.cap,
    m.hooks.next (.node (.inr slot)) = sourceHook (s.hooks.next (.sentinel (.bucket slot))) ∧
      m.hooks.prev (.node (.inr slot)) = sourceHook (s.hooks.prev (.sentinel (.bucket slot)))
  node : ∀ n, s.hooks.isLinked (.node n) = true →
    m.hooks.next (.node (.inl n)) = sourceHook (s.hooks.next (.node n)) ∧
      m.hooks.prev (.node (.inl n)) = sourceHook (s.hooks.prev (.node n))
  deadline : ∀ n, m.deadline (.inl n) = s.deadline n
  slot : m.sourceSlot = s.currentSlot
  ticks : m.sourceTicks = s.tickCount

omit [DecidableEq ι] in
/-- An event on the node of the source. -/
def movedEvent : TimerEvent ι → TimerEvent (ι ⊕ ℕ)
  | .schedule n d result => .schedule (.inl n) d result
  | .cancel n => .cancel (.inl n)
  | .tick => .tick
  | .fire n => .fire (.inl n)
  | .tickEnd => .tickEnd

/-- A step on the node of the source. -/
def movedLabel : Label ι → Label (ι ⊕ ℕ)
  | .schedule n d => .schedule (.inl n) d
  | .cancel n => .cancel (.inl n)
  | .tick => .tick
  | .dispatch => .dispatch
  | .callbackReturn => .callbackReturn
  | .refill => .refill

/-- A wheel beside a target that has just been constructed. -/
def beside (s : TimerWheel w ι) : TwoWheels w ι where
  hooks.next
    | .node (.inl n) => sourceHook (s.hooks.next (.node n))
    | .node (.inr slot) => sourceHook (s.hooks.next (.sentinel (.bucket slot)))
    | .sentinel l => .sentinel l
  hooks.prev
    | .node (.inl n) => sourceHook (s.hooks.prev (.node n))
    | .node (.inr slot) => sourceHook (s.hooks.prev (.sentinel (.bucket slot)))
    | .sentinel l => .sentinel l
  deadline
    | .inl n => s.deadline n
    | .inr _ => 0
  sourceSlot := s.currentSlot
  sourceTicks := s.tickCount
  targetSlot := 0
  targetTicks := 0

/-- Every wheel is the source of a move. -/
theorem sourceIs_beside (N : NumSlots w) (s : TimerWheel w ι) : SourceIs N (beside s) s where
  sentinel _ _ := ⟨rfl, rfl⟩
  node _ _ := ⟨rfl, rfl⟩
  deadline _ := rfl
  slot := rfl
  ticks := rfl

/-- The target after the move, with the history of the source. -/
def movedSession (N : NumSlots w) (m : TwoWheels w ι) (trace : List (TimerEvent ι)) :
    Session w (ι ⊕ ℕ) :=
  ⟨(moveCore N m).target, .idle, trace.map movedEvent⟩

/-- Every run of the source that ends between ticks is one of the target: the same calls, in ticks and
between them, and the same callbacks in the same ticks. -/
def KeepsTimers (N : NumSlots w) (callable : ι → Bool) (callable' : ι ⊕ ℕ → Bool) (s : Session w ι)
    (s' : Session w (ι ⊕ ℕ)) : Prop :=
  ∀ labels t, run (step N callable) s labels = some t → t.phase = .idle →
    ∃ labels' t', labels'.filter (fun a => !a.isInternal) =
        (labels.filter fun a => !a.isInternal).map movedLabel ∧
      run (step N callable') s' labels' = some t' ∧ t'.phase = .idle ∧
      t'.trace = t.trace.map movedEvent

/-! ## Links after the move -/

/-- `init` writes no other hook. -/
theorem init_of_ne {h : Hooks κ} {x node : κ} (hne : x ≠ node) :
    (h.init node).next x = h.next x ∧ (h.init node).prev x = h.prev x :=
  ⟨Function.update_of_ne hne _ _, Function.update_of_ne hne _ _⟩

/-- `init` links a hook to itself. -/
theorem prev_init_self (h : Hooks κ) (node : κ) : (h.init node).prev node = node := by
  simp only [Hooks.init, Function.update_self]

section Links

variable {h : Hooks (Hook (ι ⊕ ℕ))} {slot : ℕ} {x : Hook (ι ⊕ ℕ)}

theorem copySentinels_of_ne (slots : List ℕ) (hx : ∀ slot ∈ slots, x ≠ .sentinel (.bucket slot)) :
    (slots.foldl copySentinel h).next x = h.next x ∧
      (slots.foldl copySentinel h).prev x = h.prev x := by
  induction slots generalizing h with
  | nil => exact ⟨rfl, rfl⟩
  | cons slot slots ih =>
    have hne := hx slot List.mem_cons_self
    obtain ⟨hnext, hprev⟩ := ih (h := copySentinel h slot)
      fun slot' hmem => hx slot' (List.mem_cons_of_mem slot hmem)
    rw [List.foldl_cons]
    exact ⟨hnext.trans (Function.update_of_ne hne _ _), hprev.trans (Function.update_of_ne hne _ _)⟩

/-- A sentinel of the target points where the one of the source pointed. -/
theorem copySentinels_bucket (slots : List ℕ) (hslot : slot ∈ slots) :
    (slots.foldl copySentinel h).next (.sentinel (.bucket slot)) = h.next (.node (.inr slot)) := by
  induction slots generalizing h with
  | nil => exact absurd hslot List.not_mem_nil
  | cons first slots ih =>
    have hne : (.node (.inr slot) : Hook (ι ⊕ ℕ)) ≠ .sentinel (.bucket first) := by rintro ⟨⟩
    have hsource : (copySentinel h first).next (.node (.inr slot)) = h.next (.node (.inr slot)) :=
      Function.update_of_ne hne (h.next (.node (.inr first))) h.next
    rw [List.foldl_cons]
    by_cases hmem : slot ∈ slots
    · rw [ih hmem, hsource]
    · obtain rfl : slot = first := (List.mem_cons.mp hslot).resolve_right hmem
      rw [(copySentinels_of_ne slots fun slot' hmem' heq => hmem (by cases heq; exact hmem')).1]
      exact Function.update_self _ _ _

theorem resetSentinels_of_ne (slots : List ℕ) (hx : ∀ slot ∈ slots, x ≠ .node (.inr slot)) :
    (slots.foldl (fun h slot => h.init (.node (.inr slot))) h).next x = h.next x ∧
      (slots.foldl (fun h slot => h.init (.node (.inr slot))) h).prev x = h.prev x := by
  induction slots generalizing h with
  | nil => exact ⟨rfl, rfl⟩
  | cons slot slots ih =>
    have hinit := init_of_ne (h := h) (hx slot List.mem_cons_self)
    obtain ⟨hnext, hprev⟩ := ih (h := h.init (.node (.inr slot)))
      fun slot' hmem => hx slot' (List.mem_cons_of_mem slot hmem)
    rw [List.foldl_cons]
    exact ⟨hnext.trans hinit.1, hprev.trans hinit.2⟩

/-- A sentinel of the source is linked to itself. -/
theorem resetSentinels_self (slots : List ℕ) (hslot : slot ∈ slots) :
    (slots.foldl (fun h slot => h.init (.node (.inr slot))) h).prev (.node (.inr slot)) =
      .node (.inr slot) := by
  induction slots generalizing h with
  | nil => exact absurd hslot List.not_mem_nil
  | cons first slots ih =>
    rw [List.foldl_cons]
    by_cases hmem : slot ∈ slots
    · exact ih hmem
    · obtain rfl : slot = first := (List.mem_cons.mp hslot).resolve_right hmem
      rw [(resetSentinels_of_ne slots fun slot' hmem' heq => hmem (by cases heq; exact hmem')).2]
      exact prev_init_self h (.node (.inr slot))

end Links

/-- A sentinel of the target after the move. -/
theorem next_moved_bucket (N : NumSlots w) (m : TwoWheels w ι) {slot : ℕ} (hslot : slot < N.cap) :
    (moveCore N m).hooks.next (.sentinel (.bucket slot)) = m.hooks.next (.node (.inr slot)) := by
  have hmem : slot ∈ List.range N.cap := List.mem_range.mpr hslot
  rw [moveCore, (resetSentinels_of_ne _ fun _ _ => by rintro ⟨⟩).1]
  exact copySentinels_bucket _ hmem

/-- A sentinel of the source after the move. -/
theorem prev_moved_source (N : NumSlots w) (m : TwoWheels w ι) {slot : ℕ} (hslot : slot < N.cap) :
    (moveCore N m).hooks.prev (.node (.inr slot)) = .node (.inr slot) :=
  resetSentinels_self _ (List.mem_range.mpr hslot)

/-- The hooks of the nodes are not moved. -/
theorem prev_moved_node (N : NumSlots w) (m : TwoWheels w ι) (n : ι) :
    (moveCore N m).hooks.prev (.node (.inl n)) = m.hooks.prev (.node (.inl n)) := by
  rw [moveCore, (resetSentinels_of_ne _ fun _ _ => by rintro ⟨⟩).2,
    (copySentinels_of_ne _ fun _ _ => by rintro ⟨⟩).2]

variable {N : NumSlots w} {m : TwoWheels w ι} {s : TimerWheel w ι} {lists : ListHead → List ι}

/-- **A bucket of the target never looks empty**: its sentinel points to the first node, or to the
sentinel of the source, and neither points back to it. -/
theorem SourceIs.front (hm : SourceIs N m s) (hl : Layout s.hooks lists) {slot : ℕ}
    (hslot : slot < N.cap) :
    ∃ x, (moveCore N m).hooks.next (.sentinel (.bucket slot)) = .node x ∧
      (moveCore N m).hooks.prev (.node x) = .node (.inr slot) := by
  rw [next_moved_bucket N m hslot, (hm.sentinel slot hslot).1, (hl.ring _).next_head]
  cases hlist : lists (.bucket slot) with
  | nil => exact ⟨.inr slot, rfl, prev_moved_source N m hslot⟩
  | cons n ns =>
    have hring : s.hooks.Ring (.sentinel (.bucket slot)) ([] ++ .node n :: ns.map .node) := by
      simpa [hlist] using hl.ring (.bucket slot)
    have hlinked : s.hooks.isLinked (.node n) = true :=
      hl.isLinked_iff.mpr ⟨.bucket slot, hlist ▸ List.mem_cons_self⟩
    have hprev : s.hooks.prev (.node n) = .sentinel (.bucket slot) := hring.links_eq.2
    refine ⟨.inl n, rfl, ?_⟩
    rw [prev_moved_node, (hm.node n hlinked).2, hprev]
    rfl

/-! ## The tick that does not end -/

/-- The bucket that is dispatched has a first hook that does not point back to its sentinel, and
neither does `pending`. -/
structure Stuck (s : Session w κ) : Prop where
  phase : s.phase = .draining ∨ ∃ n, s.phase = .calling n
  front : ∃ n, s.wheel.hooks.next s.wheel.currentBucket = .node n ∧
    s.wheel.hooks.prev (.node n) ≠ s.wheel.currentBucket
  pending : s.wheel.hooks.prev (.sentinel .pending) ≠ s.wheel.currentBucket

namespace Stuck

variable {callable : κ → Bool} {t u : Session w κ} {b p x y : Hook κ} {h : Hooks (Hook κ)}

/-- `erase` of a hook that does not point back to `b` leaves `b` alone, and makes no hook point back
to it. -/
theorem erase_apart (hxb : x ≠ b) (hx : h.prev x ≠ b) (hy : h.prev y ≠ b) :
    (h.erase x).next b = h.next b ∧ (h.erase x).prev y ≠ b := by
  rw [Hooks.erase]
  split
  · refine ⟨?_, ?_⟩
    · simp only [Hooks.init, Function.update_of_ne hxb.symm, Function.update_of_ne hx.symm]
    · simp only [Hooks.init, Function.update_apply]
      split_ifs <;> assumption
  · exact ⟨rfl, hy⟩

/-- So does `push_back` onto another list. -/
theorem pushBack_apart (hxb : x ≠ b) (hp : h.prev p ≠ b) (hy : h.prev y ≠ b) :
    (h.pushBack p x).next b = h.next b ∧ (h.pushBack p x).prev y ≠ b := by
  rw [Hooks.pushBack, Hooks.insertAfter]
  refine ⟨?_, ?_⟩
  · simp only [Function.update_of_ne hxb.symm, Function.update_of_ne hp.symm]
  · simp only [Function.update_apply]
    split_ifs <;> assumption

/-- A round of the first loop finds the same hook in front again. -/
theorem examine (hs : Stuck t) {n : κ}
    (hfront : t.wheel.hooks.next t.wheel.currentBucket = .node n)
    (hback : t.wheel.hooks.prev (.node n) ≠ t.wheel.currentBucket) :
    Stuck (examine callable t n) := by
  have hnb : Hook.node n ≠ t.wheel.currentBucket := by rintro ⟨⟩
  have herased := erase_apart hnb hback hback
  have hpending := erase_apart hnb hback hs.pending
  unfold TimerWheel.examine
  by_cases hdue : t.wheel.deadline n ≤ t.wheel.tickCount
  · rw [if_pos hdue]
    split
    · exact ⟨.inr ⟨n, rfl⟩, ⟨n, herased.1.trans hfront, herased.2⟩, hpending.2⟩
    · exact ⟨hs.phase, ⟨n, herased.1.trans hfront, herased.2⟩, hpending.2⟩
  · -- the hook is put on `pending` as well, and found in the bucket next time
    rw [if_neg hdue]
    have hpushed := pushBack_apart hnb hpending.2 herased.2
    exact ⟨hs.phase, ⟨n, hpushed.1.trans (herased.1.trans hfront), hpushed.2⟩,
      (pushBack_apart hnb hpending.2 hpending.2).2⟩

/-- A step of the tick keeps it stuck. -/
theorem step (hs : Stuck t) {a : Label κ} (ha : a.isInternal = true)
    (hstep : step N callable t a = some u) : Stuck u := by
  obtain ⟨hphase, ⟨n, hfront, hback⟩, hpending⟩ := id hs
  cases stepsTo hstep with
  | dispatch _ hdispatch =>
    have hne : ¬ t.wheel.hooks.empty t.wheel.currentBucket = true := by
      have hnode : Hook.node n ≠ t.wheel.currentBucket := by rintro ⟨⟩
      simp [Hooks.empty, Hooks.isLinked, hfront, hnode]
    rw [TimerWheel.dispatch, if_neg hne, Hooks.front, hfront] at hdispatch
    obtain rfl := Option.some.inj hdispatch
    exact hs.examine hfront hback
  | callbackReturn _ _ => exact ⟨.inl rfl, ⟨n, hfront, hback⟩, hpending⟩
  | refill hrefilling _ =>
    -- the second loop is not reached, since the first one never exits
    rcases hphase with hdraining | ⟨k, hcalling⟩
    · cases hdraining.symm.trans hrefilling
    · cases hcalling.symm.trans hrefilling
  | schedule _ _ _ => cases ha
  | cancel _ _ => cases ha
  | tick _ => cases ha

/-- **A stuck tick does not end**, however long it goes on. -/
theorem run (hs : Stuck t) {labels : List (Label κ)} (hinternal : ∀ a ∈ labels, a.isInternal = true)
    (hrun : run (TimerWheel.step N callable) t labels = some u) : Stuck u := by
  induction labels generalizing t with
  | nil =>
    obtain rfl : t = u := by simpa using hrun
    exact hs
  | cons a labels ih =>
    obtain ⟨v, hv, hrest⟩ := Option.bind_eq_some_iff.mp hrun
    exact ih (hs.step (hinternal a List.mem_cons_self) hv)
      (fun b hb => hinternal b (List.mem_cons_of_mem a hb)) hrest

omit [DecidableEq κ] in
theorem not_idle (hs : Stuck t) : t.phase ≠ .idle := by
  rcases hs.phase with hphase | ⟨n, hphase⟩ <;> rw [hphase] <;> rintro ⟨⟩

end Stuck

/-! ## Every moved wheel hangs -/

/-- A tick of the target is stuck from its beginning. -/
theorem SourceIs.stuck (hm : SourceIs N m s) (hl : Layout s.hooks lists)
    (trace : List (TimerEvent ι)) : Stuck (beginTick N (movedSession N m trace)).session := by
  set slot := (((moveCore N m).targetSlot + 1) &&& N.mask).toNat with hslot
  have hlt : slot < N.cap := by
    have hcap : 0 < N.cap := zero_lt_two.trans_le N.cap_ge
    exact (N.index_eq ((moveCore N m).targetSlot + 1)).trans_lt (Nat.mod_lt _ hcap)
  obtain ⟨x, hnext, hprev⟩ := hm.front hl hlt
  -- `pending` is constructed at the beginning of the tick
  have hbucket : (Hook.sentinel (.bucket slot) : Hook (ι ⊕ ℕ)) ≠ .sentinel .pending := by rintro ⟨⟩
  have hnode : Hook.node x ≠ .sentinel .pending := by rintro ⟨⟩
  refine ⟨.inl rfl, ⟨x, (init_of_ne hbucket).1.trans hnext, fun heq => ?_⟩, fun heq => ?_⟩
  · cases ((init_of_ne hnode).2.trans hprev).symm.trans heq
  · exact hbucket (heq.symm.trans (prev_init_self (moveCore N m).hooks (.sentinel .pending)))

/-- Internal steps cannot be taken between ticks. -/
theorem internal_idle {callable : κ → Bool} {t u : Session w κ} {a : Label κ}
    (ha : a.isInternal = true) (hidle : t.phase = .idle) : step N callable t a ≠ some u := by
  intro hstep
  cases stepsTo hstep with
  | dispatch hdraining _ => cases hidle.symm.trans hdraining
  | callbackReturn n hcalling => cases hidle.symm.trans hcalling
  | refill hrefilling _ => cases hidle.symm.trans hrefilling
  | schedule _ _ _ => cases ha
  | cancel _ _ => cases ha
  | tick _ => cases ha

/-- No run with one call of `tick` comes to its end. -/
theorem SourceIs.never_ends (hm : SourceIs N m s) (hl : Layout s.hooks lists)
    (callable : ι ⊕ ℕ → Bool) (trace : List (TimerEvent ι)) {labels : List (Label (ι ⊕ ℕ))}
    {t : Session w (ι ⊕ ℕ)} (hlabels : labels.filter (fun a => !a.isInternal) = [.tick])
    (hrun : run (step N callable) (movedSession N m trace) labels = some t) : t.phase ≠ .idle := by
  cases labels with
  | nil => cases hlabels
  | cons a labels =>
    obtain ⟨u, hu, hrest⟩ := Option.bind_eq_some_iff.mp hrun
    by_cases ha : a.isInternal = true
    · exact absurd hu (internal_idle ha rfl)
    · rw [List.filter_cons_of_pos (by simpa using ha)] at hlabels
      obtain ⟨rfl, hnone⟩ := List.cons.inj hlabels
      rw [step_tick rfl] at hu
      obtain rfl := Option.some.inj hu
      have hinternal : ∀ b ∈ labels, b.isInternal = true := by
        intro b hb
        simpa using List.filter_eq_nil_iff.mp hnone b hb
      exact ((hm.stuck hl trace).run hinternal hrest).not_idle

/-- **No move keeps the timers**: whatever wheel is moved, every bucket of the target looks filled, and
a tick of the target does not return, while the source would have finished it. -/
theorem moved_wheel_hangs (N : NumSlots w) (callable : ι → Bool) (callable' : ι ⊕ ℕ → Bool) (T : ℕ)
    (labels : List (Label ι)) (s : Session w ι) (m : TwoWheels w ι)
    (hrun : run (step N callable) (started N ι T) labels = some s) (hidle : s.phase = .idle)
    (hm : SourceIs N m s.wheel) :
    ¬ KeepsTimers N callable callable' s (movedSession N m s.trace) ∧
      (∀ slot < N.cap, (moveCore N m).hooks.empty (.sentinel (.bucket slot)) = false) ∧
      ∀ internal t, (∀ a ∈ internal, a.isInternal = true) →
        run (step N callable') (movedSession N m s.trace) (.tick :: internal) = some t →
          t.phase ≠ .idle := by
  obtain ⟨lists, hl, hpending⟩ := linked_of_run hrun
  refine ⟨fun hkeeps => ?_, fun slot hslot => ?_, fun internal t hinternal hrun' => ?_⟩
  · -- the source finishes one more tick
    have hcompletes : Completes N callable (beginTick N s).session :=
      tick_completes (hl.init_sentinel (hpending hidle))
    obtain ⟨internal, t, hinternal, hrest, hend⟩ := hcompletes
    have htick : run (step N callable) s (.tick :: internal) = some t := by
      rw [run_cons, step_tick hidle]
      exact hrest
    obtain ⟨labels', t', hfilter, hrun', hend', -⟩ := hkeeps _ _ htick hend
    have hnone : internal.filter (fun a => !a.isInternal) = [] :=
      List.filter_eq_nil_iff.mpr fun a ha => by simp [hinternal a ha]
    rw [List.filter_cons_of_pos rfl, hnone] at hfilter
    exact hm.never_ends hl callable' s.trace hfilter hrun' hend'
  · obtain ⟨x, hnext, -⟩ := hm.front hl hslot
    simp [Hooks.empty, Hooks.isLinked, hnext]
  · refine hm.never_ends hl callable' s.trace ?_ hrun'
    have hnone : internal.filter (fun a => !a.isInternal) = [] :=
      List.filter_eq_nil_iff.mpr fun a ha => by simp [hinternal a ha]
    rw [List.filter_cons_of_pos rfl, hnone]

/-- A wheel of two slots with one timer. -/
theorem moved_wheel_hangs_pending :
    ∃ s, run (step twoSlots fun _ => true) (started twoSlots ℕ 0) [.schedule 0 1] = some s ∧
      ¬ KeepsTimers twoSlots (fun _ => true) (fun _ => true) s
          (movedSession twoSlots (beside s.wheel) s.trace) ∧
        (∀ slot < twoSlots.cap,
          (moveCore twoSlots (beside s.wheel)).hooks.empty (.sentinel (.bucket slot)) = false) ∧
        ∀ internal t, (∀ a ∈ internal, a.isInternal = true) →
          run (step twoSlots fun _ => true) (movedSession twoSlots (beside s.wheel) s.trace)
            (.tick :: internal) = some t → t.phase ≠ .idle :=
  ⟨_, rfl, moved_wheel_hangs twoSlots _ _ 0 [.schedule 0 1] _ _ rfl rfl (sourceIs_beside _ _)⟩

/-- A wheel without timers is moved, and both buckets of the target look filled; a wheel with one timer
is moved, and the next tick of the target fires it again and again. -/
theorem not_keepsTimers_moved :
    (∀ slot < twoSlots.cap, (moveCore twoSlots (beside (started twoSlots ℕ 0).wheel)).hooks.empty
        (.sentinel (.bucket slot)) = false) ∧
      (¬ KeepsTimers twoSlots (fun _ => true) (fun _ => true) (started twoSlots ℕ 0)
        (movedSession twoSlots (beside (started twoSlots ℕ 0).wheel) [])) ∧
      ∃ s t, run (step twoSlots fun _ => true) (started twoSlots ℕ 0) [.schedule 0 1] = some s ∧
        run (step twoSlots fun _ => true) (movedSession twoSlots (beside s.wheel) s.trace)
          [.tick, .dispatch, .callbackReturn, .dispatch] = some t ∧
        t.trace.count (.fire (.inl 0)) = 2 := by
  have hm := sourceIs_beside twoSlots (started twoSlots ℕ 0).wheel
  refine ⟨fun slot hslot => ?_, fun hkeeps => ?_, _, _, rfl, rfl, by decide⟩
  · obtain ⟨x, hnext, -⟩ := hm.front layout_started hslot
    simp [Hooks.empty, Hooks.isLinked, hnext]
  · obtain ⟨t, hrun, hend⟩ : ∃ t, run (step twoSlots fun _ => true) (started twoSlots ℕ 0)
        [.tick, .dispatch, .refill] = some t ∧ t.phase = .idle := ⟨_, rfl, rfl⟩
    obtain ⟨labels, t', hfilter, hrun', hend', -⟩ := hkeeps _ t hrun hend
    exact hm.never_ends layout_started _ [] hfilter hrun' hend'

end TimerWheel

end Memkit
