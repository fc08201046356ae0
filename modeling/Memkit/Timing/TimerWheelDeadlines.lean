import Memkit.Timing.TimerWheelLayout

/-! # The timer wheel is on time until its tick count wraps

A history of the wheel is compared with the exact agenda (`Agenda`), whose due times do not wrap.
`dispatch_bucket` compares the wrapped deadline of a node with the wrapped tick count, and the two
orders disagree once the deadline has wrapped and the tick count has not.

* **`Punctual`** — the branch that goes wrong is not taken.
* **`Inv`** — every armed node is in the bucket of its due time, or in `pending` while its bucket is
  dispatched.
* **`on_time_of_punctual`** — a run of punctual steps is on time, and for at most `2 ^ 32` slots no
  other run is. -/

namespace Memkit

namespace TimerWheel

open Transition

variable {w : ℕ} {ι : Type*}

/-- The step does not go wrong: a tick visits the slot of its count, and the node that is examined
does not have a deadline below the tick count. -/
def Punctual (N : NumSlots w) (s : Session w ι) : Label ι → Prop
  | .tick => slotOf N (s.wheel.tickCount + 1) = N.index (s.wheel.currentSlot + 1)
  | .dispatch =>
    ∀ n, s.wheel.hooks.front s.wheel.currentBucket = .node n →
      ¬ s.wheel.deadline n < s.wheel.tickCount
  | _ => True

/-- The agenda of a wheel without timers after `T` ticks. -/
def startAgenda (ι : Type*) (T : ℕ) : Agenda ι := ⟨T, fun _ => none⟩

/-- In the first loop of `dispatch_bucket`. -/
def Phase.examines : Phase ι → Prop
  | .draining => True
  | .calling _ => True
  | _ => False

/-! ## Slots -/

variable {N : NumSlots w} {callable : ι → Bool} {wheel wheel' : TimerWheel w ι}
  {phase phase' : Phase ι} {a a' : Agenda ι} {lists lists' : ListHead → List ι} {l : ListHead}
  {m n : ι} {ns : List ι} {now u : ℕ}

/-- With at most `2 ^ 32` slots a deadline has the slot of its exact due time. -/
theorem slotOf_ofNat (hN : N.cap ≤ 2 ^ 32) (k : ℕ) : slotOf N (BitVec.ofNat 32 k) = k % N.cap := by
  obtain ⟨i, hi, hcap, -⟩ := N.exists_log
  have hi' : i ≤ 32 := by
    rw [hcap] at hN
    exact (Nat.pow_le_pow_iff_right (by norm_num)).mp hN
  rw [slotOf, N.index_eq, BitVec.toNat_setWidth, BitVec.toNat_ofNat, hcap,
    Nat.mod_mod_of_dvd _ (Nat.pow_dvd_pow 2 hi), Nat.mod_mod_of_dvd _ (Nat.pow_dvd_pow 2 hi')]

/-- The next slot. -/
theorem index_succ {slot : BitVec w} (hslot : slot.toNat = now % N.cap) :
    N.index (slot + 1) = (now + 1) % N.cap := by
  have hslot' : slot = BitVec.ofNat w (now % N.cap) := by
    rw [← hslot, BitVec.ofNat_toNat, BitVec.setWidth_eq]
  rw [hslot', WrapCounter.ofNat_succ, N.index_ofNat, Nat.mod_add_mod]

/-! ## The invariant -/

/-- Where the node `n` with due time `u` is, at the exact time `now`. -/
structure Filed (N : NumSlots w) (callable : ι → Bool) (wheel : TimerWheel w ι)
    (phase : Phase ι) (now : ℕ) (lists : ListHead → List ι) (n : ι) (u : ℕ) : Prop where
  deadline_eq : wheel.deadline n = BitVec.ofNat 32 u
  callable : callable n = true
  horizon : u < now + 2 ^ 32
  place :
    (n ∈ lists (.bucket (slotOf N (BitVec.ofNat 32 u))) ∧
      (now < u ∨ now = u ∧ phase.examines ∧
        slotOf N (BitVec.ofNat 32 u) = wheel.currentSlot.toNat)) ∨
    (n ∈ lists .pending ∧ now < u ∧ phase ≠ .idle ∧
      slotOf N (BitVec.ofNat 32 u) = wheel.currentSlot.toNat)

namespace Filed

/-- A node stays in its place when only other nodes change. -/
theorem mono (hf : Filed N callable wheel phase now lists n u)
    (hdeadline : wheel'.deadline n = wheel.deadline n)
    (hslot : wheel'.currentSlot = wheel.currentSlot)
    (hexamines : phase.examines → phase'.examines)
    (hidle : phase ≠ .idle → phase' ≠ .idle)
    (hmem : ∀ l, n ∈ lists l → n ∈ lists' l) : Filed N callable wheel' phase' now lists' n u where
  deadline_eq := hdeadline.trans hf.deadline_eq
  callable := hf.callable
  horizon := hf.horizon
  place := by
    rcases hf.place with ⟨hn, hlater | ⟨hnow, hphase, heq⟩⟩ | ⟨hn, hlater, hphase, heq⟩
    · exact .inl ⟨hmem _ hn, .inl hlater⟩
    · exact .inl ⟨hmem _ hn, .inr ⟨hnow, hexamines hphase, hslot ▸ heq⟩⟩
    · exact .inr ⟨hmem _ hn, hlater, hidle hphase, hslot ▸ heq⟩

/-- A due time is not in the past. -/
theorem le_due (hf : Filed N callable wheel phase now lists n u) : now ≤ u := by
  rcases hf.place with ⟨-, hlater | ⟨hnow, -⟩⟩ | ⟨-, hlater, -⟩
  · exact hlater.le
  · exact hnow.le
  · exact hlater.le

/-- The words for the deadline and the tick count agree exactly at the due time. -/
theorem deadline_eq_iff (hf : Filed N callable wheel phase now lists n u) :
    wheel.deadline n = BitVec.ofNat 32 now ↔ u = now := by
  rw [hf.deadline_eq, eq_comm, eq_comm (a := u)]
  have hle := hf.le_due
  have hlt := hf.horizon
  exact WrapCounter.ofNat_eq_iff hle (by omega)

end Filed

variable [DecidableEq ι]

/-- **The invariant**: the counters count, and the nodes on the lists are the armed ones, each in
its place. -/
structure Inv (N : NumSlots w) (callable : ι → Bool) (wheel : TimerWheel w ι)
    (phase : Phase ι) (a : Agenda ι) (lists : ListHead → List ι) : Prop where
  tick_eq : wheel.tickCount = BitVec.ofNat 32 a.now
  slot_eq : wheel.currentSlot.toNat = a.now % N.cap
  layout : Layout wheel.hooks lists
  unarmed : ∀ n, a.due n = none → ∀ l, n ∉ lists l
  armed : ∀ n u, a.due n = some u → Filed N callable wheel phase a.now lists n u

/-- A wheel without timers. -/
theorem inv_started (N : NumSlots w) (callable : ι → Bool) (T : ℕ) :
    Inv N callable (started N ι T).wheel .idle (startAgenda ι T) fun _ => [] where
  tick_eq := rfl
  slot_eq := by
    have hlt : T % N.cap < 2 ^ w := lt_trans (Nat.mod_lt _ (by have := N.cap_ge; omega)) N.cap_lt
    simp only [started, startAgenda, BitVec.toNat_ofNat]
    exact Nat.mod_eq_of_lt hlt
  layout := layout_started
  unarmed _ _ _ := List.not_mem_nil
  armed n u h := by cases h

namespace Inv

/-- A node on a list is armed. -/
theorem due_of_mem (hinv : Inv N callable wheel phase a lists) (hn : n ∈ lists l) :
    ∃ u, a.due n = some u ∧ Filed N callable wheel phase a.now lists n u := by
  cases hdue : a.due n with
  | none => exact absurd hn (hinv.unarmed n hdue l)
  | some u => exact ⟨u, rfl, hinv.armed n u hdue⟩

/-- A node is linked exactly if it is armed. -/
theorem isLinked_iff (hinv : Inv N callable wheel phase a lists) :
    wheel.hooks.isLinked (.node n) = true ↔ a.due n ≠ none := by
  rw [hinv.layout.isLinked_iff]
  constructor
  · rintro ⟨l, hn⟩ hnone
    exact hinv.unarmed n hnone l hn
  · intro hdue
    obtain ⟨u, hu⟩ := Option.ne_none_iff_exists'.mp hdue
    rcases (hinv.armed n u hu).place with ⟨hn, -⟩ | ⟨hn, -⟩
    · exact ⟨_, hn⟩
    · exact ⟨_, hn⟩

/-- A change at one node keeps the invariant if that node is again in its place. -/
theorem change (hinv : Inv N callable wheel phase a lists) (n : ι)
    (hlayout : Layout wheel'.hooks lists')
    (htick : wheel'.tickCount = wheel.tickCount) (hslot : wheel'.currentSlot = wheel.currentSlot)
    (hexamines : phase.examines → phase'.examines) (hidle : phase ≠ .idle → phase' ≠ .idle)
    (hnow : a'.now = a.now)
    (hdeadline : ∀ m, m ≠ n → wheel'.deadline m = wheel.deadline m)
    (hdue : ∀ m, m ≠ n → a'.due m = a.due m)
    (hmem : ∀ m l, m ≠ n → (m ∈ lists' l ↔ m ∈ lists l))
    (hunarmed : a'.due n = none → ∀ l, n ∉ lists' l)
    (harmed : ∀ u, a'.due n = some u → Filed N callable wheel' phase' a.now lists' n u) :
    Inv N callable wheel' phase' a' lists' where
  tick_eq := by rw [htick, hnow, hinv.tick_eq]
  slot_eq := by rw [hslot, hnow, hinv.slot_eq]
  layout := hlayout
  unarmed := by
    intro m hm l hmem'
    by_cases hmn : m = n
    · subst hmn
      exact hunarmed hm l hmem'
    · exact hinv.unarmed m (hdue m hmn ▸ hm) l ((hmem m l hmn).mp hmem')
  armed := by
    intro m u hm
    rw [hnow]
    by_cases hmn : m = n
    · subst hmn
      exact harmed u hm
    · exact (hinv.armed m u (hdue m hmn ▸ hm)).mono (hdeadline m hmn) hslot hexamines hidle
        fun l => (hmem m l hmn).mpr

/-- The same agenda with a due time removed that is not there. -/
theorem update_none (hdue : a.due n = none) :
    ({ a with due := Function.update a.due n none } : Agenda ι) = a := by
  rw [Function.update_eq_self_iff.mpr hdue.symm]

/-! ## Calls by the user -/

/-- **`schedule`** succeeds exactly for a positive delay and an unarmed node with a callback, and
then files the node in the bucket of its due time. -/
theorem schedule (hinv : Inv N callable wheel phase a lists) (n : ι) (d : BitVec 32) :
    ∃ lists', Inv N callable (schedule N callable wheel n d).2 phase
        (a.after (.schedule n d (schedule N callable wheel n d).1)) lists' ∧
      a.Allows callable (.schedule n d (schedule N callable wheel n d).1) := by
  unfold TimerWheel.schedule
  by_cases hd : d = 0
  · simp only [if_pos hd]
    exact ⟨lists, hinv, by simp [Agenda.Allows, hd]⟩
  rw [if_neg hd]
  by_cases hcall : callable n = false
  · simp only [if_pos hcall]
    exact ⟨lists, hinv, by simp [Agenda.Allows, hcall]⟩
  rw [if_neg hcall]
  by_cases hlinked : wheel.hooks.isLinked (.node n) = true
  · simp only [if_pos hlinked]
    exact ⟨lists, hinv, by simp [Agenda.Allows, hinv.isLinked_iff.mp hlinked]⟩
  rw [if_neg hlinked]
  rw [Bool.not_eq_false] at hcall
  have hdue : a.due n = none := by
    by_contra hne
    exact hlinked (hinv.isLinked_iff.mpr hne)
  have hdeadline : wheel.tickCount + d = BitVec.ofNat 32 (a.now + d.toNat) := by
    rw [hinv.tick_eq, BitVec.ofNat_add, BitVec.ofNat_toNat, BitVec.setWidth_eq]
  have hpos : 0 < d.toNat := by
    rw [Nat.pos_iff_ne_zero]
    exact fun h0 => hd (BitVec.eq_of_toNat_eq (by simpa using h0))
  have hlt := d.isLt
  refine ⟨putOn lists (.bucket (slotOf N (wheel.tickCount + d))) n, ?_, ?_⟩
  · refine hinv.change n (hinv.layout.pushBack (hinv.unarmed n hdue) _) rfl rfl id id rfl
      (fun m hm => Function.update_of_ne hm _ _) (fun m hm => Function.update_of_ne hm _ _)
      (fun m l hm => by simp [Layout.mem_pushed, hm]) ?_ ?_
    · intro hnone
      simp [Agenda.after] at hnone
    · intro u hu
      obtain rfl : a.now + d.toNat = u := by simpa [Agenda.after] using hu
      refine ⟨?_, hcall, by omega, .inl ⟨?_, .inl (by omega)⟩⟩
      · rw [← hdeadline]
        exact Function.update_self ..
      · rw [← hdeadline]
        exact Layout.mem_pushed.mpr (.inr ⟨rfl, rfl⟩)
  · exact ⟨fun _ => ⟨hd, hcall, hdue⟩, fun _ => rfl⟩

/-- **`cancel`** takes the node off its list. -/
theorem cancel (hinv : Inv N callable wheel phase a lists) (n : ι) :
    ∃ lists', Inv N callable (cancel N wheel n) phase (a.after (.cancel n)) lists' := by
  unfold TimerWheel.cancel
  by_cases hlinked : wheel.hooks.isLinked (.node n) = true
  · rw [if_pos hlinked, cancel_hooks]
    obtain ⟨l, hn⟩ := hinv.layout.isLinked_iff.mp hlinked
    refine ⟨takeOff lists l n, ?_⟩
    refine hinv.change n (hinv.layout.erase hn) rfl rfl id id rfl
      (fun m hm => Function.update_of_ne hm _ _) (fun m hm => Function.update_of_ne hm _ _)
      (fun m l hm => by simp [hinv.layout.mem_erased hn, hm]) ?_ ?_
    · intro _ l hmem
      exact ((hinv.layout.mem_erased hn).mp hmem).2 rfl
    · intro u hu
      simp [Agenda.after] at hu
  · rw [if_neg hlinked]
    have hdue : a.due n = none := by
      by_contra hne
      exact hlinked (hinv.isLinked_iff.mpr hne)
    refine ⟨lists, ?_⟩
    rw [Agenda.after, update_none hdue]
    exact hinv

/-! ## A tick -/

/-- Between ticks `pending` is empty. -/
theorem pending_nil (hinv : Inv N callable wheel .idle a lists) : lists .pending = [] := by
  rw [List.eq_nil_iff_forall_not_mem]
  intro n hn
  obtain ⟨u, -, hf⟩ := hinv.due_of_mem hn
  rcases hf.place with ⟨hn', -⟩ | ⟨-, -, hphase, -⟩
  · cases hinv.layout.apart _ _ n hn hn'
  · exact hphase rfl

/-- **The beginning of a tick** visits the bucket of the nodes that are due. -/
theorem startTick (hinv : Inv N callable wheel .idle a lists)
    (hslot : slotOf N (wheel.tickCount + 1) = N.index (wheel.currentSlot + 1)) :
    Inv N callable (startTick N wheel) .draining (a.after .tick) lists where
  tick_eq := by
    simp only [TimerWheel.startTick, Agenda.after]
    rw [hinv.tick_eq, WrapCounter.ofNat_succ]
  slot_eq := index_succ hinv.slot_eq
  layout := hinv.layout.init_sentinel hinv.pending_nil
  unarmed := hinv.unarmed
  armed := by
    intro n u hu
    have hf := hinv.armed n u hu
    refine ⟨hf.deadline_eq, hf.callable, ?_, ?_⟩
    · have hlt := hf.horizon
      simp only [Agenda.after]
      omega
    · rcases hf.place with ⟨hn, hlater | ⟨-, hphase, -⟩⟩ | ⟨-, -, hphase, -⟩
      · refine .inl ⟨hn, ?_⟩
        rcases Nat.lt_or_eq_of_le (Nat.succ_le_of_lt hlater) with hlt | heq
        · exact .inl hlt
        · refine .inr ⟨heq, trivial, ?_⟩
          rw [hinv.tick_eq, WrapCounter.ofNat_succ] at hslot
          subst heq
          exact hslot
      · exact hphase.elim
      · exact absurd rfl hphase

/-- The front of the bucket that is dispatched is not late. -/
theorem due_front (hinv : Inv N callable wheel phase a lists)
    (hcons : lists (.bucket wheel.currentSlot.toNat) = n :: ns) :
    ∃ u, a.due n = some u ∧ Filed N callable wheel phase a.now lists n u ∧
      slotOf N (BitVec.ofNat 32 u) = wheel.currentSlot.toNat := by
  have hn : n ∈ lists (.bucket wheel.currentSlot.toNat) := by simp [hcons]
  obtain ⟨u, hu, hf⟩ := hinv.due_of_mem hn
  refine ⟨u, hu, hf, ?_⟩
  rcases hf.place with ⟨hn', -⟩ | ⟨hn', -⟩
  · exact ListHead.bucket.inj (hinv.layout.apart _ _ n hn' hn)
  · cases hinv.layout.apart _ _ n hn' hn

/-- The words for the deadline and the tick count at an armed node. -/
theorem deadline_eq_iff (hinv : Inv N callable wheel phase a lists)
    (hf : Filed N callable wheel phase a.now lists n u) :
    wheel.deadline n = wheel.tickCount ↔ u = a.now := by
  rw [hinv.tick_eq, hf.deadline_eq_iff]

/-- **A callback** is invoked at its due time. -/
theorem fire (hinv : Inv N callable wheel .draining a lists)
    (hn : n ∈ lists l) :
    Inv N callable { wheel with hooks := wheel.hooks.erase (.node n) } (.calling n)
      (a.after (.fire n)) (takeOff lists l n) := by
  refine hinv.change n (hinv.layout.erase hn) rfl rfl id (fun _ h => by cases h) rfl
    (fun _ _ => rfl) (fun m hm => Function.update_of_ne hm _ _)
    (fun m l hm => by simp [hinv.layout.mem_erased hn, hm]) ?_ ?_
  · intro _ l hmem
    exact ((hinv.layout.mem_erased hn).mp hmem).2 rfl
  · intro u hu
    simp [Agenda.after] at hu

/-- A node that is due later moves to another list of the same slot. -/
theorem move (hinv : Inv N callable wheel phase a lists) (hphase : phase ≠ .idle)
    (hn : n ∈ lists l) (hl : l = .bucket wheel.currentSlot.toNat ∨ l = .pending) {l' : ListHead}
    (hl' : l' = .bucket wheel.currentSlot.toNat ∨ l' = .pending)
    (hlater : ∀ u, a.due n = some u → a.now < u) :
    Inv N callable
      { wheel with hooks := (wheel.hooks.erase (.node n)).pushBack (.sentinel l') (.node n) } phase
      a (putOn (takeOff lists l n) l' n) := by
  refine hinv.change n (hinv.layout.move hn l') rfl rfl id id rfl (fun _ _ => rfl) (fun _ _ => rfl)
    (fun m k hm => by simp [hinv.layout.mem_moved hn, hm]) ?_ ?_
  · intro hnone
    exact absurd hn (hinv.unarmed n hnone l)
  · intro u hu
    have hf := hinv.armed n u hu
    have hslot : slotOf N (BitVec.ofNat 32 u) = wheel.currentSlot.toNat := by
      rcases hf.place with ⟨hn', -⟩ | ⟨-, -, -, heq⟩
      · rcases hl with rfl | rfl
        · exact ListHead.bucket.inj (hinv.layout.apart _ _ n hn' hn)
        · cases hinv.layout.apart _ _ n hn' hn
      · exact heq
    have hmem : n ∈ putOn (takeOff lists l n) l' n l' :=
      (hinv.layout.mem_moved hn).mpr (.inr ⟨rfl, rfl⟩)
    refine ⟨hf.deadline_eq, hf.callable, hf.horizon, ?_⟩
    rcases hl' with rfl | rfl
    · exact .inl ⟨hslot ▸ hmem, .inl (hlater u hu)⟩
    · exact .inr ⟨hmem, hlater u hu, hphase, hslot⟩

/-- The nodes that are due have left their bucket when it is empty. -/
theorem endDrain (hinv : Inv N callable wheel .draining a lists)
    (hnil : lists (.bucket wheel.currentSlot.toNat) = []) :
    Inv N callable wheel .refilling a lists where
  __ := hinv
  armed := by
    intro n u hu
    have hf := hinv.armed n u hu
    refine ⟨hf.deadline_eq, hf.callable, hf.horizon, ?_⟩
    rcases hf.place with ⟨hn, hlater | ⟨-, -, heq⟩⟩ | ⟨hn, hlater, -, heq⟩
    · exact .inl ⟨hn, .inl hlater⟩
    · rw [heq, hnil] at hn
      cases hn
    · exact .inr ⟨hn, hlater, (fun h => by cases h), heq⟩

/-- **The end of a tick** leaves nothing that is due. -/
theorem endRefill (hinv : Inv N callable wheel .refilling a lists) (hnil : lists .pending = []) :
    Inv N callable wheel .idle a lists ∧ a.Allows callable .tickEnd := by
  have hbucket : ∀ n u, a.due n = some u →
      n ∈ lists (.bucket (slotOf N (BitVec.ofNat 32 u))) ∧ a.now < u := by
    intro n u hu
    rcases (hinv.armed n u hu).place with ⟨hn, hlater | ⟨-, hphase, -⟩⟩ | ⟨hn, -⟩
    · exact ⟨hn, hlater⟩
    · exact hphase.elim
    · rw [hnil] at hn
      cases hn
  refine ⟨{ hinv with armed := ?_ }, fun n u hu => (hbucket n u hu).2⟩
  intro n u hu
  have hf := hinv.armed n u hu
  exact ⟨hf.deadline_eq, hf.callable, hf.horizon,
    .inl ⟨(hbucket n u hu).1, .inl (hbucket n u hu).2⟩⟩

/-- A callback returns. -/
theorem callbackReturn (hinv : Inv N callable wheel (.calling n) a lists) :
    Inv N callable wheel .draining a lists where
  __ := hinv
  armed m u hu :=
    (hinv.armed m u hu).mono rfl rfl (fun _ => trivial) (fun _ h => by cases h) fun _ => id

end Inv

/-! ## Runs -/

variable {s t : Session w ι} {labels : List (Label ι)} {T : ℕ}

/-- The history follows the agenda, and the wheel is as the agenda says. -/
def Tracks (N : NumSlots w) (callable : ι → Bool) (a : Agenda ι) (s : Session w ι) : Prop :=
  a.Accepts callable s.trace ∧
    ∃ lists, Inv N callable s.wheel s.phase (a.afterAll s.trace) lists

/-- An event that the agenda allows. -/
theorem Tracks.log (h : Tracks N callable a s) {e : TimerEvent ι}
    (hallows : (a.afterAll s.trace).Allows callable e)
    (hinv : ∃ lists, Inv N callable wheel phase ((a.afterAll s.trace).after e) lists) :
    Tracks N callable a ⟨wheel, phase, s.trace ++ [e]⟩ :=
  ⟨Agenda.accepts_concat.mpr ⟨h.1, hallows⟩, by rw [Agenda.afterAll_concat]; exact hinv⟩

/-- The examination of the front of the bucket, when its deadline is not below the tick count. -/
theorem Tracks.examine (h : Tracks N callable a s) (hphase : s.phase = .draining)
    (hinv : Inv N callable s.wheel s.phase (a.afterAll s.trace) lists)
    (hcons : lists (.bucket s.wheel.currentSlot.toNat) = n :: ns)
    (hpunctual : ¬ s.wheel.deadline n < s.wheel.tickCount) :
    Tracks N callable a (examine callable s n) := by
  obtain ⟨u, hu, hf, -⟩ := hinv.due_front hcons
  have hn : n ∈ lists (.bucket s.wheel.currentSlot.toNat) := by simp [hcons]
  by_cases hdue : s.wheel.deadline n ≤ s.wheel.tickCount
  · have heq : s.wheel.deadline n = s.wheel.tickCount :=
      BitVec.le_antisymm hdue (BitVec.not_lt.mp hpunctual)
    obtain rfl : u = (a.afterAll s.trace).now := (hinv.deadline_eq_iff hf).mp heq
    rw [examine_due hdue hf.callable]
    refine h.log hu ?_
    rw [hphase] at hinv
    exact ⟨_, hinv.fire hn⟩
  · rw [examine_not_due hdue]
    refine ⟨h.1, _, hinv.move ?_ hn (.inl rfl) (.inr rfl) ?_⟩
    · rw [hphase]
      exact fun h => by cases h
    · intro v hv
      obtain rfl : u = v := Option.some.inj (hu.symm.trans hv)
      refine lt_of_le_of_ne hf.le_due fun hnow => hdue ?_
      rw [(hinv.deadline_eq_iff hf).mpr hnow.symm]
      exact BitVec.le_refl _

/-- **A punctual step keeps the wheel as the agenda says.** -/
theorem Tracks.step (h : Tracks N callable a s) {label : Label ι} (hp : Punctual N s label)
    (hstep : step N callable s label = some t) : Tracks N callable a t := by
  obtain ⟨hacc, lists, hinv⟩ := id h
  cases stepsTo hstep with
  | schedule n d _ =>
    obtain ⟨lists', hinv', hallows⟩ := hinv.schedule n d
    exact h.log hallows ⟨lists', hinv'⟩
  | cancel n _ => exact h.log trivial (hinv.cancel n)
  | tick hidle =>
    rw [hidle] at hinv
    exact h.log trivial ⟨lists, hinv.startTick hp⟩
  | dispatch hdraining hdispatch =>
    cases hbucket : lists (.bucket s.wheel.currentSlot.toNat) with
    | nil =>
      obtain rfl := Option.some.inj ((dispatch_nil hinv.layout hbucket).symm.trans hdispatch)
      rw [hdraining] at hinv
      exact ⟨hacc, lists, hinv.endDrain hbucket⟩
    | cons n ns =>
      obtain rfl := Option.some.inj ((dispatch_cons hinv.layout hbucket).symm.trans hdispatch)
      exact h.examine hdraining hinv hbucket (hp n (hinv.layout.front_eq hbucket))
  | callbackReturn n hcalling =>
    rw [hcalling] at hinv
    exact ⟨hacc, lists, hinv.callbackReturn⟩
  | refill hrefilling hrefill =>
    cases hpending : lists .pending with
    | nil =>
      obtain rfl := Option.some.inj ((refill_nil hinv.layout hpending).symm.trans hrefill)
      rw [hrefilling] at hinv
      obtain ⟨hidle, hallows⟩ := hinv.endRefill hpending
      exact h.log hallows ⟨lists, hidle⟩
    | cons n ns =>
      obtain rfl := Option.some.inj ((refill_cons hinv.layout hpending).symm.trans hrefill)
      have hn : n ∈ lists .pending := by simp [hpending]
      refine ⟨hacc, _, hinv.move ?_ hn (.inr rfl) (.inl rfl) ?_⟩
      · rw [hrefilling]
        exact fun h => by cases h
      · -- a pending timer is armed for a later lap, wherever its hook is
        intro u hu
        rcases (hinv.armed n u hu).place with ⟨hn', -⟩ | ⟨-, hlater, -⟩
        · cases hinv.layout.apart _ _ n hn' hn
        · exact hlater

/-- A wheel without timers is as its agenda says. -/
theorem tracks_started (N : NumSlots w) (callable : ι → Bool) (T : ℕ) :
    Tracks N callable (startAgenda ι T) (started N ι T) :=
  ⟨trivial, _, inv_started N callable T⟩

/-- A punctual run keeps the wheel as the agenda says. -/
theorem tracks_of_run (hp : EveryStep (step N callable) (Punctual N) (started N ι T) labels)
    (hrun : run (step N callable) (started N ι T) labels = some t) :
    Tracks N callable (startAgenda ι T) t :=
  hp.run_invariant (Tracks N callable (startAgenda ι T)) (fun _ _ _ h hp hstep => h.step hp hstep)
    (tracks_started N callable T) hrun

/-- A step only adds to the history. -/
theorem trace_prefix {label : Label ι} (hstep : step N callable s label = some t) :
    s.trace <+: t.trace := by
  have hexamine : ∀ n, s.trace <+: (examine callable s n).trace := by
    intro n
    unfold examine
    by_cases hdue : s.wheel.deadline n ≤ s.wheel.tickCount
    · by_cases hcall : callable n
      · simp [hdue, hcall]
      · simp [hdue, hcall]
    · simp [hdue]
  cases stepsTo hstep with
  | schedule n d _ => exact List.prefix_append _ _
  | cancel n _ => exact List.prefix_append _ _
  | tick _ => exact List.prefix_append _ _
  | dispatch _ hdispatch =>
    unfold dispatch at hdispatch
    split at hdispatch
    · obtain rfl := Option.some.inj hdispatch
      exact List.prefix_rfl
    · split at hdispatch
      · cases hdispatch
      · obtain rfl := Option.some.inj hdispatch
        exact hexamine _
  | callbackReturn _ _ => exact List.prefix_rfl
  | refill _ hrefill =>
    unfold refill at hrefill
    split at hrefill
    · obtain rfl := Option.some.inj hrefill
      exact List.prefix_append _ _
    · split at hrefill
      · cases hrefill
      · obtain rfl := Option.some.inj hrefill
        exact List.prefix_rfl

/-- The node at the front of the dispatched bucket is invoked, but not at its due time, when its
deadline is below the tick count. -/
theorem Tracks.fire_of_lt (h : Tracks N callable a s) {label : Label ι}
    (hstep : TimerWheel.step N callable s label = some t) (hN : N.cap ≤ 2 ^ 32)
    (hp : ¬ Punctual N s label) :
    ∃ n, t.trace = s.trace ++ [.fire n] ∧
      (a.afterAll s.trace).due n ≠ some (a.afterAll s.trace).now := by
  obtain ⟨-, lists, hinv⟩ := h
  cases stepsTo hstep with
  | tick _ =>
    -- with this many slots a tick always visits the slot of its count
    refine absurd ?_ hp
    rw [Punctual, hinv.tick_eq, WrapCounter.ofNat_succ, slotOf_ofNat hN, index_succ hinv.slot_eq]
  | dispatch _ hdispatch =>
    cases hbucket : lists (.bucket s.wheel.currentSlot.toNat) with
    | nil =>
      refine absurd ?_ hp
      intro n hn
      have hempty : s.wheel.hooks.empty s.wheel.currentBucket = true :=
        hinv.layout.empty_iff.mpr hbucket
      simp only [Hooks.front, currentBucket] at hn
      simp [Hooks.empty, Hooks.isLinked, currentBucket, hn] at hempty
    | cons n ns =>
      have hlate : s.wheel.deadline n < s.wheel.tickCount := by
        by_contra hnot
        refine hp fun m hm => ?_
        rw [currentBucket, hinv.layout.front_eq hbucket] at hm
        obtain rfl := Hook.node.inj hm
        exact hnot
      obtain ⟨u, hu, hf, -⟩ := hinv.due_front hbucket
      rw [dispatch_cons hinv.layout hbucket, examine_due (BitVec.le_of_lt hlate) hf.callable]
        at hdispatch
      obtain rfl := Option.some.inj hdispatch
      refine ⟨n, rfl, ?_⟩
      intro hnow
      obtain rfl : u = (a.afterAll s.trace).now := Option.some.inj (hu.symm.trans hnow)
      rw [(hinv.deadline_eq_iff hf).mpr rfl] at hlate
      exact BitVec.lt_irrefl _ hlate
  | schedule _ _ _ => exact absurd trivial hp
  | cancel _ _ => exact absurd trivial hp
  | callbackReturn _ _ => exact absurd trivial hp
  | refill _ _ => exact absurd trivial hp

/-- **A run of punctual steps is on time**: its history follows the agenda, every scheduled node is
invoked exactly when it is due, and a tick in progress comes to its end. Conversely, with at most
`2 ^ 32` slots a run that is on time has punctual steps only. -/
theorem on_time_of_punctual (N : NumSlots w) (callable : ι → Bool) (T : ℕ)
    (labels : List (Label ι)) (t : Session w ι)
    (hrun : run (step N callable) (started N ι T) labels = some t) :
    (EveryStep (step N callable) (Punctual N) (started N ι T) labels →
      (startAgenda ι T).Accepts callable t.trace ∧ OnTime t.trace ∧ Completes N callable t) ∧
    (N.cap ≤ 2 ^ 32 → OnTime t.trace →
      EveryStep (step N callable) (Punctual N) (started N ι T) labels) := by
  constructor
  · intro hp
    obtain ⟨hacc, lists, hinv⟩ := tracks_of_run hp hrun
    exact ⟨hacc, hacc.onTime fun _ => rfl, tick_completes hinv.layout⟩
  · intro hN hon
    refine everyStep_of_final (Tracks N callable (startAgenda ι T))
      (fun s => ∃ rest, OnTime (s.trace ++ rest)) ?_ ?_ (fun _ _ _ h hp hstep => h.step hp hstep)
      (tracks_started N callable T) hrun ⟨[], by simpa using hon⟩
    · rintro s label t hstep ⟨rest, hrest⟩
      obtain ⟨more, hmore⟩ := trace_prefix hstep
      exact ⟨more ++ rest, by rwa [← List.append_assoc, hmore]⟩
    · rintro s label t h hstep ⟨rest, hrest⟩
      by_contra hnot
      obtain ⟨n, htrace, hdue⟩ := h.fire_of_lt hstep hN hnot
      rw [htrace] at hrest
      exact hdue (Agenda.due_of_onTime hrest (List.prefix_append _ _))

/-- Whether a step is punctual is checked before it is taken. -/
instance decidablePunctual (N : NumSlots w) (s : Session w ι) :
    ∀ label, Decidable (Punctual N s label)
  | .tick =>
    inferInstanceAs (Decidable
      (slotOf N (s.wheel.tickCount + 1) = N.index (s.wheel.currentSlot + 1)))
  | .dispatch =>
    match h : s.wheel.hooks.front s.wheel.currentBucket with
    | .node n =>
      decidable_of_iff (¬ s.wheel.deadline n < s.wheel.tickCount) (by simp [Punctual, h])
    | .sentinel _ => isTrue (by simp [Punctual, h])
  | .schedule _ _ => isTrue trivial
  | .cancel _ => isTrue trivial
  | .callbackReturn => isTrue trivial
  | .refill => isTrue trivial

/-- Two slots. -/
def twoSlots : NumSlots 64 := .two

/-- A delay of three ticks across the wrap of the tick count; the callback schedules its node
again. -/
def acrossWrap : List (Label ℕ) :=
  [.schedule 0 3, .tick, .dispatch, .dispatch, .refill, .refill, .tick, .dispatch, .refill,
    .tick, .dispatch, .schedule 0 1, .callbackReturn, .dispatch, .refill]

/-- The node is invoked in the third tick, although its deadline wraps. -/
theorem on_time_of_punctual_acrossWrap :
    ∃ t, run (step twoSlots fun _ => true) (started twoSlots ℕ (2 ^ 32 - 1)) acrossWrap = some t ∧
      t.trace = [.schedule 0 3 .ok, .tick, .tickEnd, .tick, .tickEnd, .tick, .fire 0,
        .schedule 0 1 .ok, .tickEnd] ∧
      OnTime t.trace ∧ Completes twoSlots (fun _ => true) t := by
  obtain ⟨t, hrun, htrace⟩ := exists_run_eq (step twoSlots fun _ => true)
    (started twoSlots ℕ (2 ^ 32 - 1)) acrossWrap Session.trace
    (b := [.schedule 0 3 .ok, .tick, .tickEnd, .tick, .tickEnd, .tick, .fire 0,
        .schedule 0 1 .ok, .tickEnd]) (by decide)
  have hp : EveryStep (step twoSlots fun _ => true) (Punctual twoSlots)
      (started twoSlots ℕ (2 ^ 32 - 1)) acrossWrap := by decide
  obtain ⟨-, hon, hcompletes⟩ :=
    (on_time_of_punctual twoSlots (fun _ => true) (2 ^ 32 - 1) acrossWrap t hrun).1 hp
  exact ⟨t, hrun, htrace, hon, hcompletes⟩

/-- Eight slots. -/
def eightSlots : NumSlots 64 := ⟨8, 7, by decide, by decide, by decide⟩

/-- **A wrapped deadline is invoked too early.** Five ticks before the tick count wraps, a node is
scheduled nine ticks ahead. Its deadline wraps to 4, the next tick visits slot 4 with a tick count
of `2 ^ 32 - 4`, and invokes it. -/
theorem wrapped_deadline_fires_early :
    ∃ t, run (step eightSlots fun _ => true) (started eightSlots ℕ (2 ^ 32 - 5))
        [.schedule 0 9, .tick, .dispatch] = some t ∧
      t.trace = [.schedule 0 9 .ok, .tick, .fire 0] ∧ ¬ OnTime t.trace := by
  obtain ⟨t, hrun, htrace⟩ := exists_run_eq (step eightSlots fun _ => true)
    (started eightSlots ℕ (2 ^ 32 - 5)) [.schedule 0 9, .tick, .dispatch] Session.trace
    (b := [.schedule 0 9 .ok, .tick, .fire 0]) (by decide)
  refine ⟨t, hrun, htrace, ?_⟩
  rw [htrace]
  intro hon
  have hpre : [.schedule 0 9 .ok, .tick] ++ [.fire 0] <+:
      ([.schedule 0 9 .ok, .tick, .fire 0] : List (TimerEvent ℕ)) := List.prefix_rfl
  have hdue := Agenda.due_of_onTime (a := startAgenda ℕ 0) hon hpre
  revert hdue
  decide

/-! ## Every starting count is reached -/

/-- A tick without timers only counts. -/
theorem idle_tick (callable : ι → Bool) (hwheel : s.wheel = (started N ι T).wheel)
    (hphase : s.phase = .idle) :
    ∃ t, run (step N callable) s [.tick, .dispatch, .refill] = some t ∧
      t.wheel = (started N ι (T + 1)).wheel ∧ t.phase = .idle := by
  have hslot : (started N ι T).wheel.currentSlot.toNat = T % N.cap :=
    (inv_started N callable T).slot_eq
  have hstart : startTick N (started N ι T).wheel = (started N ι (T + 1)).wheel := by
    have hword : ((started N ι T).wheel.currentSlot + 1) &&& N.mask =
        BitVec.ofNat w ((T + 1) % N.cap) := by
      rw [← index_succ hslot, PowerOfTwoCapacity.index, BitVec.ofNat_toNat, BitVec.setWidth_eq]
    rw [startTick, hword]
    simp only [started, Hooks.init, Function.update_eq_self_iff.mpr, id_eq]
    rw [show (1 : BitVec 32) = BitVec.ofNat 32 1 from rfl, ← BitVec.ofNat_add]
  have hempty : ∀ y : Hook ι, (started N ι (T + 1)).wheel.hooks.empty y = true := by
    intro y
    simp [started, Hooks.empty, Hooks.isLinked]
  refine ⟨⟨(started N ι (T + 1)).wheel, .idle, s.trace ++ [.tick] ++ [.tickEnd]⟩, ?_, rfl, rfl⟩
  simp only [run_cons, run_nil, step, hphase, hwheel, hstart, Option.bind_some, dispatch, refill,
    Session.log, hempty, if_true]

/-- **Every starting count is reached** from the wheel that `init` leaves. -/
theorem exists_run_started (N : NumSlots w) (callable : ι → Bool) (T : ℕ) :
    ∃ labels t, run (step N callable) (started N ι 0) labels = some t ∧
      t.wheel = (started N ι T).wheel ∧ t.phase = .idle := by
  induction T with
  | zero => exact ⟨[], _, rfl, rfl, rfl⟩
  | succ T ih =>
    obtain ⟨labels, s, hrun, hwheel, hphase⟩ := ih
    obtain ⟨t, htick, ht⟩ := idle_tick callable hwheel hphase
    refine ⟨labels ++ [.tick, .dispatch, .refill], t, ?_, ht⟩
    rw [run_append, hrun, Option.bind_some, htick]

end TimerWheel

end Memkit
