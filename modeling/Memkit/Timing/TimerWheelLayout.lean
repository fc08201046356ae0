import Memkit.Timing.TimerWheel

/-! # The lists of the timer wheel

* **`Layout`** — every sentinel heads a list of nodes, and the links spell the lists out. One lemma
  for each operation on hooks says how the lists change.
* **`dispatch_cons`**, **`refill_cons`** — what a round of each loop of `dispatch_bucket` does, in
  terms of the lists.
* **`tick_completes`** — the loops end: a tick in progress comes to its end once the callback that is
  running returns. -/

namespace Memkit

namespace TimerWheel

variable {w : ℕ} {ι : Type*} [DecidableEq ι]

/-- Every sentinel heads a list of nodes, no node is on two lists, and nodes on no list are
unlinked. -/
structure Layout (h : Hooks (Hook ι)) (lists : ListHead → List ι) : Prop where
  ring : ∀ l, h.Ring (.sentinel l) ((lists l).map .node)
  nodup : ∀ l, (lists l).Nodup
  apart : ∀ l l' n, n ∈ lists l → n ∈ lists l' → l = l'
  free : ∀ n, (∀ l, n ∉ lists l) → h.isLinked (.node n) = false

/-- The lists with a node taken off one of them. -/
def takeOff (lists : ListHead → List ι) (l : ListHead) (n : ι) : ListHead → List ι :=
  Function.update lists l ((lists l).erase n)

omit [DecidableEq ι] in
/-- The lists with a node put at the end of one of them. -/
def putOn (lists : ListHead → List ι) (l : ListHead) (n : ι) : ListHead → List ι :=
  Function.update lists l (lists l ++ [n])

variable {h : Hooks (Hook ι)} {lists : ListHead → List ι} {l l' : ListHead} {m n : ι}

theorem layout_started : Layout (⟨id, id⟩ : Hooks (Hook ι)) fun _ => [] where
  ring _ := ⟨rfl, rfl⟩
  nodup _ := List.nodup_nil
  apart _ _ _ hn := absurd hn List.not_mem_nil
  free _ _ := by simp [Hooks.isLinked]

namespace Layout

/-- The hooks of a list, with its sentinel, are distinct. -/
theorem hooks_nodup (hl : Layout h lists) (l : ListHead) :
    (Hook.sentinel l :: (lists l).map .node).Nodup := by
  refine List.nodup_cons.mpr ⟨by simp, (hl.nodup l).map ?_⟩
  intro m n hmn
  exact Hook.node.inj hmn

/-- The hooks of two lists are different. -/
theorem hooks_apart (hl : Layout h lists) (hne : l ≠ l') {y : Hook ι}
    (hy : y ∈ Hook.sentinel l :: (lists l).map .node) :
    y ∉ Hook.sentinel l' :: (lists l').map .node := by
  intro hy'
  cases y with
  | node n => exact hne (hl.apart l l' n (by simpa using hy) (by simpa using hy'))
  | sentinel k =>
    have hk : k = l := by simpa using hy
    have hk' : k = l' := by simpa using hy'
    exact hne (hk.symm.trans hk')

/-- A node is linked exactly if it is on a list. -/
theorem isLinked_iff (hl : Layout h lists) :
    h.isLinked (.node n) = true ↔ ∃ l, n ∈ lists l := by
  constructor
  · intro hlinked
    by_contra hnone
    push Not at hnone
    rw [hl.free n hnone] at hlinked
    cases hlinked
  · rintro ⟨l, hn⟩
    exact (hl.ring l).isLinked (hl.hooks_nodup l) (List.mem_map_of_mem hn)

/-- A list is empty exactly if its sentinel is linked to itself. -/
theorem empty_iff (hl : Layout h lists) : h.empty (.sentinel l) = true ↔ lists l = [] := by
  rw [(hl.ring l).empty_iff (List.nodup_cons.mp (hl.hooks_nodup l)).1, List.map_eq_nil_iff]

/-- The front of a list that is not empty. -/
theorem front_eq (hl : Layout h lists) {ns : List ι} (hns : lists l = n :: ns) :
    h.front (.sentinel l) = .node n := by
  have hnext := (hl.ring l).next_head
  rw [hns] at hnext
  exact hnext

/-- What is on the lists once a node is taken off. -/
theorem mem_erased (hl : Layout h lists) (hn : n ∈ lists l) :
    m ∈ takeOff lists l n l' ↔ m ∈ lists l' ∧ m ≠ n := by
  by_cases heq : l' = l
  · subst heq
    rw [takeOff, Function.update_self, (hl.nodup l').mem_erase_iff, and_comm]
  · rw [takeOff, Function.update_of_ne heq]
    refine (and_iff_left_of_imp ?_).symm
    rintro hm rfl
    exact heq (hl.apart l' l m hm hn)

omit [DecidableEq ι] in
/-- What is on the lists once a node is put on. -/
theorem mem_pushed :
    m ∈ putOn lists l n l' ↔ m ∈ lists l' ∨ (m = n ∧ l' = l) := by
  by_cases heq : l' = l
  · subst heq
    rw [putOn, Function.update_self, List.mem_append, List.mem_singleton]
    simp
  · rw [putOn, Function.update_of_ne heq]
    simp [heq]

/-- **`erase`** takes a node off its list. -/
theorem erase (hl : Layout h lists) (hn : n ∈ lists l) :
    Layout (h.erase (.node n)) (takeOff lists l n) := by
  obtain ⟨as, bs, hnas, hsplit, herase⟩ := List.exists_erase_eq hn
  have hring := hl.ring l
  have hnodup := hl.hooks_nodup l
  rw [hsplit, List.map_append, List.map_cons] at hring hnodup
  refine ⟨?_, ?_, ?_, ?_⟩
  · intro l'
    by_cases heq : l' = l
    · subst heq
      rw [takeOff, Function.update_self, herase, List.map_append]
      exact hring.erase hnodup
    · rw [takeOff, Function.update_of_ne heq]
      have hframe : ∀ y ∈ Hook.sentinel l' :: (lists l').map .node,
          (h.erase (.node n)).next y = h.next y ∧ (h.erase (.node n)).prev y = h.prev y := by
        intro y hy
        apply hring.erase_frame hnodup
        have hout := hl.hooks_apart heq hy
        rwa [hsplit, List.map_append, List.map_cons] at hout
      exact (hl.ring l').congr (fun y hy => (hframe y hy).1) fun y hy => (hframe y hy).2
  · intro l'
    by_cases heq : l' = l
    · subst heq
      rw [takeOff, Function.update_self]
      exact (hl.nodup l').erase n
    · rw [takeOff, Function.update_of_ne heq]
      exact hl.nodup l'
  · intro k k' m hm hm'
    exact hl.apart k k' m (hl.mem_erased hn |>.mp hm).1 (hl.mem_erased hn |>.mp hm').1
  · intro m hm
    by_cases hmn : m = n
    · subst hmn
      exact h.isLinked_erase _
    · have hout : ∀ l', m ∉ lists l' := fun l' hmem => hm l' ((hl.mem_erased hn).mpr ⟨hmem, hmn⟩)
      have hframe : (h.erase (.node n)).next (.node m) = h.next (.node m) := by
        refine (hring.erase_frame hnodup ?_).1
        have hml := hout l
        rw [hsplit] at hml
        simpa using hml
      have hfree := hl.free m hout
      rw [Hooks.isLinked] at hfree ⊢
      rwa [hframe]

/-- **`push_back`** puts an unlinked node on a list. -/
theorem pushBack (hl : Layout h lists) (hn : ∀ l, n ∉ lists l) (l : ListHead) :
    Layout (h.pushBack (.sentinel l) (.node n)) (putOn lists l n) := by
  have hring := hl.ring l
  have hout : Hook.node n ∉ Hook.sentinel l :: (lists l).map .node := by simpa using hn l
  refine ⟨?_, ?_, ?_, ?_⟩
  · intro l'
    by_cases heq : l' = l
    · subst heq
      rw [putOn, Function.update_self, List.map_append]
      exact hring.pushBack (hl.hooks_nodup l') hout
    · rw [putOn, Function.update_of_ne heq]
      -- the rings of the other lists have none of the hooks that were written
      have hframe : ∀ y ∈ Hook.sentinel l' :: (lists l').map .node,
          (h.pushBack (.sentinel l) (.node n)).next y = h.next y ∧
            (h.pushBack (.sentinel l) (.node n)).prev y = h.prev y := by
        intro y hy
        refine hring.pushBack_frame hout ?_ (hl.hooks_apart heq hy)
        rintro rfl
        exact hn l' (by simpa using hy)
      exact (hl.ring l').congr (fun y hy => (hframe y hy).1) fun y hy => (hframe y hy).2
  · intro l'
    by_cases heq : l' = l
    · subst heq
      rw [putOn, Function.update_self, ← List.concat_eq_append, List.nodup_concat]
      exact ⟨hn l', hl.nodup l'⟩
    · rw [putOn, Function.update_of_ne heq]
      exact hl.nodup l'
  · intro k k' m hm hm'
    rcases mem_pushed.mp hm with hm | ⟨hmn, hk⟩
    · rcases mem_pushed.mp hm' with hm' | ⟨hmn', -⟩
      · exact hl.apart k k' m hm hm'
      · exact absurd (hmn' ▸ hm) (hn k)
    · rcases mem_pushed.mp hm' with hm' | ⟨-, hk'⟩
      · exact absurd (hmn ▸ hm') (hn k')
      · exact hk.trans hk'.symm
  · intro m hm
    have hmn : m ≠ n := by
      rintro rfl
      exact hm l (mem_pushed.mpr (.inr ⟨rfl, rfl⟩))
    have hfree := hl.free m fun l' hmem => hm l' (mem_pushed.mpr (.inl hmem))
    have hframe : (h.pushBack (.sentinel l) (.node n)).next (.node m) = h.next (.node m) := by
      refine (hring.pushBack_frame hout (by simpa using hmn) ?_).1
      have hml : m ∉ lists l := fun hmem => hm l (mem_pushed.mpr (.inl hmem))
      simpa using hml
    rw [Hooks.isLinked] at hfree ⊢
    rwa [hframe]

/-- A node moves from one list to the end of another. -/
theorem move (hl : Layout h lists) (hn : n ∈ lists l) (l' : ListHead) :
    Layout ((h.erase (.node n)).pushBack (.sentinel l') (.node n))
      (putOn (takeOff lists l n) l' n) := by
  refine (hl.erase hn).pushBack ?_ l'
  intro k hk
  exact ((hl.mem_erased hn).mp hk).2 rfl

/-- What is on the lists once a node is moved. -/
theorem mem_moved (hl : Layout h lists) (hn : n ∈ lists l) {k : ListHead} :
    m ∈ putOn (takeOff lists l n) l' n k ↔ (m ∈ lists k ∧ m ≠ n) ∨ (m = n ∧ k = l') := by
  rw [mem_pushed, hl.mem_erased hn]

/-- Constructing an empty list over an empty one. -/
theorem init_sentinel (hl : Layout h lists) (hnil : lists l = []) :
    Layout (h.init (.sentinel l)) lists := by
  have hring := hl.ring l
  rw [hnil] at hring
  have hnext : h.next (.sentinel l) = .sentinel l := hring.next_head
  have hprev : h.prev (.sentinel l) = .sentinel l := hring.prev_head
  have hsame : h.init (.sentinel l) = h := by
    rw [Hooks.init, Function.update_eq_self_iff.mpr hnext.symm,
      Function.update_eq_self_iff.mpr hprev.symm]
  rw [hsame]
  exact hl

end Layout

/-- `cancel` erases the hook once; the further erasures find it unlinked. -/
theorem cancel_hooks (N : NumSlots w) (h : Hooks (Hook ι)) (n : ι) :
    (List.range N.cap).foldl (fun h _ => h.erase (.node n)) h = h.erase (.node n) := by
  have hagain : ∀ (ks : List ℕ) (g : Hooks (Hook ι)), g.isLinked (.node n) = false →
      ks.foldl (fun h _ => h.erase (.node n)) g = g := by
    intro ks
    induction ks with
    | nil => exact fun g _ => rfl
    | cons k ks ih =>
      intro g hg
      rw [List.foldl_cons, Hooks.erase_of_not_linked hg]
      exact ih g hg
  obtain ⟨k, hk⟩ : ∃ k, N.cap = k + 1 := ⟨N.cap - 1, by have := N.cap_ge; omega⟩
  rw [hk, List.range_succ_eq_map, List.foldl_cons]
  exact hagain _ _ (h.isLinked_erase _)

/-! ## The loops of `dispatch_bucket` -/

variable {N : NumSlots w} {callable : ι → Bool} {s t : Session w ι} {ns : List ι}

/-- The first loop ends at an empty bucket. -/
theorem dispatch_nil (hl : Layout s.wheel.hooks lists)
    (hnil : lists (.bucket s.wheel.currentSlot.toNat) = []) :
    dispatch callable s = some { s with phase := .refilling } := by
  have hempty : s.wheel.hooks.empty s.wheel.currentBucket = true := hl.empty_iff.mpr hnil
  rw [dispatch, if_pos hempty]

/-- A round of the first loop examines the front of the bucket. -/
theorem dispatch_cons (hl : Layout s.wheel.hooks lists)
    (hcons : lists (.bucket s.wheel.currentSlot.toNat) = n :: ns) :
    dispatch callable s = some (examine callable s n) := by
  have hne : ¬ s.wheel.hooks.empty s.wheel.currentBucket = true := by
    rw [currentBucket, hl.empty_iff, hcons]
    exact List.cons_ne_nil n ns
  rw [dispatch, if_neg hne, currentBucket, hl.front_eq hcons]

/-- The second loop ends, and with it the tick, when `pending` is empty. -/
theorem refill_nil (hl : Layout s.wheel.hooks lists) (hnil : lists .pending = []) :
    refill s = some ({ s with phase := .idle }.log .tickEnd) := by
  rw [refill, if_pos (hl.empty_iff.mpr hnil)]

/-- A round of the second loop moves the front of `pending` back. -/
theorem refill_cons (hl : Layout s.wheel.hooks lists) (hcons : lists .pending = n :: ns) :
    refill s = some (putBack s n) := by
  have hne : ¬ s.wheel.hooks.empty (.sentinel .pending) = true := by
    rw [hl.empty_iff, hcons]
    exact List.cons_ne_nil n ns
  rw [refill, if_neg hne, hl.front_eq hcons]

/-- A node that is due and has a callback is taken off its list and called. -/
theorem examine_due (hdue : s.wheel.deadline n ≤ s.wheel.tickCount) (hcall : callable n = true) :
    examine callable s n =
      { s with wheel.hooks := s.wheel.hooks.erase (.node n), phase := .calling n }.log
        (.fire n) := by
  simp only [examine, if_pos hdue, if_pos hcall]

/-- A node that is not due moves to `pending`. -/
theorem examine_not_due (hdue : ¬ s.wheel.deadline n ≤ s.wheel.tickCount) :
    examine callable s n =
      { s with wheel.hooks :=
          (s.wheel.hooks.erase (.node n)).pushBack (.sentinel .pending) (.node n) } := by
  simp only [examine, if_neg hdue]

/-- `examine` leaves the rest of the bucket for the next rounds. -/
theorem examine_rest (callable : ι → Bool) (hl : Layout s.wheel.hooks lists)
    (hcons : lists (.bucket s.wheel.currentSlot.toNat) = n :: ns) :
    ∃ lists', Layout (examine callable s n).wheel.hooks lists' ∧
      lists' (.bucket s.wheel.currentSlot.toNat) = ns := by
  have hn : n ∈ lists (.bucket s.wheel.currentSlot.toNat) := by simp [hcons]
  have hrest : takeOff lists (.bucket s.wheel.currentSlot.toNat) n
      (.bucket s.wheel.currentSlot.toNat) = ns := by
    rw [takeOff, Function.update_self, hcons, List.erase_cons_head]
  by_cases hdue : s.wheel.deadline n ≤ s.wheel.tickCount
  · refine ⟨_, ?_, hrest⟩
    have herased := hl.erase hn
    by_cases hcall : callable n
    · simpa [examine, hdue, hcall] using herased
    · simpa [examine, hdue, hcall] using herased
  · refine ⟨putOn (takeOff lists (.bucket s.wheel.currentSlot.toNat) n) .pending n, ?_, ?_⟩
    · rw [examine_not_due hdue]
      exact hl.move hn .pending
    · rw [putOn, Function.update_of_ne (by simp)]
      exact hrest

/-- `examine` works inside the tick. -/
theorem examine_frame (callable : ι → Bool) (s : Session w ι) (n : ι) :
    (examine callable s n).wheel.currentSlot = s.wheel.currentSlot ∧
      ((examine callable s n).phase = .calling n ∨ (examine callable s n).phase = s.phase) := by
  unfold examine
  by_cases hdue : s.wheel.deadline n ≤ s.wheel.tickCount
  · by_cases hcall : callable n
    · simp [hdue, hcall]
    · simp [hdue, hcall]
  · simp [hdue]

/-! ## Ticks end -/

/-- A label of `tick` itself. -/
def Label.isInternal : Label ι → Bool
  | .dispatch => true
  | .callbackReturn => true
  | .refill => true
  | _ => false

/-- The tick in progress comes to its end if the callback that is running makes no further call,
and neither do those that follow. -/
def Completes (N : NumSlots w) (callable : ι → Bool) (s : Session w ι) : Prop :=
  ∃ labels t, (∀ a ∈ labels, a.isInternal = true) ∧
    Transition.run (step N callable) s labels = some t ∧ t.phase = .idle

/-- An internal step before a completion. -/
theorem Completes.of_step {a : Label ι} (ha : a.isInternal = true)
    (hstep : step N callable s a = some t) (ht : Completes N callable t) :
    Completes N callable s := by
  obtain ⟨labels, u, hinternal, hrun, hidle⟩ := ht
  refine ⟨a :: labels, u, ?_, ?_, hidle⟩
  · intro b hb
    rcases List.mem_cons.mp hb with rfl | hb
    · exact ha
    · exact hinternal b hb
  · rw [Transition.run_cons, hstep, Option.bind_some, hrun]

/-- The second loop ends: each round shortens `pending`. -/
theorem refilling_completes (hl : Layout s.wheel.hooks lists) (hphase : s.phase = .refilling) :
    Completes N callable s := by
  induction hpending : lists .pending generalizing s lists with
  | nil =>
    have hstep : step N callable s .refill = some ({ s with phase := .idle }.log .tickEnd) := by
      simp only [step, hphase]
      exact refill_nil hl hpending
    exact .of_step rfl hstep ⟨[], _, by simp, rfl, rfl⟩
  | cons n ns ih =>
    have hstep : step N callable s .refill = some (putBack s n) := by
      simp only [step, hphase]
      exact refill_cons hl hpending
    have hn : n ∈ lists .pending := by simp [hpending]
    refine .of_step rfl hstep
      (ih (hl.move hn (.bucket s.wheel.currentSlot.toNat)) hphase ?_)
    rw [putOn, Function.update_of_ne (by simp), takeOff, Function.update_self, hpending,
      List.erase_cons_head]

/-- The first loop ends: each round shortens the bucket. -/
theorem draining_completes (hl : Layout s.wheel.hooks lists) (hphase : s.phase = .draining) :
    Completes N callable s := by
  induction hbucket : lists (.bucket s.wheel.currentSlot.toNat) generalizing s lists with
  | nil =>
    have hstep : step N callable s .dispatch = some { s with phase := .refilling } := by
      simp only [step, hphase]
      exact dispatch_nil hl hbucket
    exact .of_step rfl hstep (refilling_completes hl rfl)
  | cons n ns ih =>
    have hstep : step N callable s .dispatch = some (examine callable s n) := by
      simp only [step, hphase]
      exact dispatch_cons hl hbucket
    obtain ⟨lists', hl', hrest⟩ := examine_rest callable hl hbucket
    obtain ⟨hslot, hcalling | hsame⟩ := examine_frame callable s n
    · have hreturn : step N callable (examine callable s n) .callbackReturn =
          some { examine callable s n with phase := .draining } := by
        simp only [step, hcalling]
      refine .of_step rfl hstep (.of_step rfl hreturn (ih hl' rfl ?_))
      rw [hslot]
      exact hrest
    · refine .of_step rfl hstep (ih hl' (hsame.trans hphase) ?_)
      rw [hslot]
      exact hrest

/-- **A tick in progress comes to its end.** -/
theorem tick_completes (hl : Layout s.wheel.hooks lists) : Completes N callable s := by
  cases hphase : s.phase with
  | idle => exact ⟨[], s, by simp, rfl, hphase⟩
  | draining => exact draining_completes hl hphase
  | calling n =>
    have hreturn : step N callable s .callbackReturn = some { s with phase := .draining } := by
      simp only [step, hphase]
    exact .of_step rfl hreturn (draining_completes hl rfl)
  | refilling => exact refilling_completes hl hphase

end TimerWheel

end Memkit
