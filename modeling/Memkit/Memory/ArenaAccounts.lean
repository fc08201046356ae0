import Memkit.Memory.ArenaBackings

/-! # What arenas give back

Every arena that is created is a block of the heap, and its backing is another block or a mapping;
each is given back once, a mapping with the length it was obtained with.

* **`ArenaSystem.held`** — what is obtained and not given back.
* **`Accounts`** — the ledger holds that, and no two arenas give back the same.
* **`Accounts.create_cases`** — a creation that fails has given back what it obtained. -/

namespace Memkit

variable {w : ℕ}

namespace ArenaSystem

/-- The blocks of the heap that are arenas, and what the arenas have to give back. -/
def held (cfg : ArenaPlatform w) (s : ArenaSystem w) : Set (Resource w) :=
  {r | (∃ x ∈ s.created, r = .block x) ∨ ∃ x, (s.arenas x).owned cfg = some r}

end ArenaSystem

/-- It was obtained by one of the first `n` requests. -/
def Resource.Before (n : ℕ) : Resource w → Prop
  | .block ptr => ∃ k < n, ptr = .heap k
  | .mapping ptr _ => ∃ k < n, ptr = .mapping k

namespace ArenaSystem

/-- What was obtained is accounted for: every arena that was created is a block of the heap, and
what it has to give back is given back by no other. -/
structure Accounts (cfg : ArenaPlatform w) (s : ArenaSystem w) : Prop where
  nodup : s.created.Nodup
  allowed : ∀ x ∈ s.created, (cfg.allowHeap || cfg.allowMmap) = true
  holds : s.resources.Holds (s.held cfg)
  before : ∀ r ∈ s.held cfg, r.Before s.requests
  created : ∀ x r, (s.arenas x).owned cfg = some r → x ∈ s.created
  once : ∀ x y r, (s.arenas x).owned cfg = some r → (s.arenas y).owned cfg = some r → x = y
  backing : ∀ x p, (s.arenas x).owned cfg = some (.block p) → p ∉ s.created

variable {cfg : ArenaPlatform w} {s t : ArenaSystem w} {x y : MemoryPtr} {a : ArenaObject w}

theorem accounts_start (cfg : ArenaPlatform w) (memory : BitVec w → BitVec 8) :
    Accounts cfg (start memory) where
  nodup := List.nodup_nil
  allowed _ hx := absurd hx List.not_mem_nil
  holds := by
    have hnone : held cfg (start memory) = ∅ := by
      ext r
      simp [held, start, ArenaObject.owned, ArenaObject.zeroed]
    rw [hnone]
    exact Ledger.holds_empty
  before r hr := by simp [held, start, ArenaObject.owned, ArenaObject.zeroed] at hr
  created x r hr := by simp [start, ArenaObject.owned, ArenaObject.zeroed] at hr
  once x y r hr := by simp [start, ArenaObject.owned, ArenaObject.zeroed] at hr
  backing x p hp := by simp [start, ArenaObject.owned, ArenaObject.zeroed] at hp

/-- Using an arena that can be used is no fault. -/
theorem Accounts.touch (h : Accounts cfg s) (hx : s.Usable x) :
    ∃ l, s.touch x = { s with resources := l } ∧ l.Holds (s.held cfg) := by
  cases x with
  | null => exact ⟨_, rfl, h.holds⟩
  | given number => exact ⟨_, rfl, h.holds⟩
  | heap request => exact ⟨_, rfl, h.holds.access (.inl ⟨_, hx, rfl⟩)⟩
  | mapping request => exact absurd hx id

/-- Another ledger, and more requests. -/
theorem Accounts.later (h : Accounts cfg s) {l : Ledger (Resource w)} (hl : l.Holds (s.held cfg))
    {requests : ℕ} (hle : s.requests ≤ requests) :
    Accounts cfg { s with resources := l, requests := requests } where
  nodup := h.nodup
  allowed := h.allowed
  holds := hl
  before r hr := by
    have hbefore := h.before r hr
    cases r with
    | block ptr =>
      obtain ⟨k, hk, hptr⟩ := hbefore
      exact ⟨k, hk.trans_le hle, hptr⟩
    | mapping ptr bytes =>
      obtain ⟨k, hk, hptr⟩ := hbefore
      exact ⟨k, hk.trans_le hle, hptr⟩
  created := h.created
  once := h.once
  backing := h.backing

/-- Arenas that have the same to give back. -/
theorem Accounts.congr (h : Accounts cfg s)
    (howned : ∀ y, (t.arenas y).owned cfg = (s.arenas y).owned cfg)
    (hcreated : t.created = s.created) (hrequests : t.requests = s.requests)
    (hholds : t.resources.Holds (s.held cfg)) : Accounts cfg t := by
  have hheld : t.held cfg = s.held cfg := by
    simp only [held, howned, hcreated]
  refine ⟨hcreated ▸ h.nodup, ?_, hheld ▸ hholds, ?_, ?_, ?_, ?_⟩
  · rw [hcreated]
    exact h.allowed
  · rw [hheld, hrequests]
    exact h.before
  · intro x r hr
    rw [howned] at hr
    rw [hcreated]
    exact h.created x r hr
  · intro x y r hx hy
    rw [howned] at hx hy
    exact h.once x y r hx hy
  · intro x p hp
    rw [howned] at hp
    rw [hcreated]
    exact h.backing x p hp

/-! ## Calls on an arena -/

theorem Accounts.use (h : Accounts cfg s) (hx : s.Usable x) (c : ArenaHistory.Call w) :
    Accounts cfg (use cfg s x c).2 := by
  obtain ⟨l, htouch, hl⟩ := h.touch hx
  rw [use_eq, htouch]
  refine h.congr (fun y => ?_) rfl rfl hl
  by_cases hyx : y = x
  · subst hyx
    simp [ArenaObject.owned]
  · simp [Function.update_of_ne hyx]

theorem Accounts.init (h : Accounts cfg s) {config : Option (ArenaConfig w)}
    (hinits : InitsSeparate cfg s x config) : Accounts cfg (init s x config).2 := by
  obtain ⟨husable, howns, hlent, -⟩ := hinits
  rcases init_eq s x config with ⟨st, hsame⟩ | ⟨c, hc, -, -, hok⟩
  · rw [hsame]
    exact h
  obtain ⟨l, htouch, hl⟩ := h.touch husable
  rw [hok, htouch]
  refine h.congr (fun y => ?_) rfl rfl hl
  by_cases hyx : y = x
  · subst hyx
    simp [owned_of_lent howns, owned_of_lent, hlent c hc]
  · simp [Function.update_of_ne hyx]

/-- What an arena gave back is not held any more. -/
theorem Accounts.deinit (h : Accounts cfg s) (hx : s.Usable x) :
    Accounts cfg (deinit cfg s x) := by
  unfold ArenaSystem.deinit
  by_cases hnull : x = .null
  · rw [if_pos hnull]
    exact h
  obtain ⟨l, htouch, hl⟩ := h.touch hx
  rw [if_neg hnull, htouch, releaseBacking_eq]
  have hother : ∀ y, y ≠ x → Function.update s.arenas x ArenaObject.zeroed y = s.arenas y :=
    fun y hy => Function.update_of_ne hy _ _
  cases howned : (s.arenas x).owned cfg with
  | none =>
    refine h.congr (fun y => ?_) rfl rfl hl
    by_cases hyx : y = x
    · subst hyx
      simp [howned]
    · simp only [hother y hyx]
  | some r =>
    -- every arena but this one has the same to give back
    have hiff : ∀ y q, (Function.update s.arenas x ArenaObject.zeroed y).owned cfg = some q ↔
        y ≠ x ∧ (s.arenas y).owned cfg = some q := by
      intro y q
      by_cases hyx : y = x
      · subst hyx
        simp
      · simp [hyx]
    have hheld : held cfg { s with
        arenas := Function.update s.arenas x .zeroed
        blocks := Function.update s.blocks x []
        resources := l.destroy r } = s.held cfg \ {r} := by
      ext q
      simp only [held, hiff, Set.mem_ofPred_eq, Set.mem_sdiff, Set.mem_singleton_iff]
      constructor
      · rintro (⟨z, hz, rfl⟩ | ⟨y, hyx, hy⟩)
        · refine ⟨.inl ⟨z, hz, rfl⟩, fun heq => ?_⟩
          exact h.backing x z (howned.trans (congrArg some heq.symm)) hz
        · refine ⟨.inr ⟨y, hy⟩, fun heq => hyx ?_⟩
          exact h.once y x q hy (howned.trans (congrArg some heq.symm))
      · rintro ⟨hz | ⟨y, hy⟩, hqr⟩
        · exact .inl hz
        · refine .inr ⟨y, fun hyx => hqr ?_, hy⟩
          rw [hyx, howned] at hy
          exact (Option.some.inj hy).symm
    refine ⟨h.nodup, h.allowed, ?_, ?_, ?_, ?_, ?_⟩
    · exact hheld ▸ hl.destroy (.inr ⟨x, howned⟩)
    · intro q hq
      exact h.before q (hheld.le hq).1
    · exact fun y q hq => h.created y q ((hiff y q).mp hq).2
    · exact fun y z q hy hz => h.once y z q ((hiff y q).mp hy).2 ((hiff z q).mp hz).2
    · exact fun y p hp => h.backing y p ((hiff y _).mp hp).2

/-- The arena itself is given back. -/
theorem Accounts.destroy (h : Accounts cfg s) (hx : x ∈ s.created) (hnull : x ≠ .null) :
    Accounts cfg (destroy cfg s x) := by
  have husable : s.Usable x := by
    obtain ⟨k, -, rfl⟩ := h.before _ (.inl ⟨x, hx, rfl⟩)
    exact hx
  have hdeinit := h.deinit husable
  have hzeroed : (ArenaSystem.deinit cfg s x).arenas x = .zeroed := by
    simp [ArenaSystem.deinit, hnull]
  have hcreated : (ArenaSystem.deinit cfg s x).created = s.created := by
    have htouch : (s.touch x).created = s.created := by cases x <;> rfl
    simp [ArenaSystem.deinit, hnull, releaseBacking_eq, htouch]
  unfold ArenaSystem.destroy
  rw [if_neg hnull]
  generalize ArenaSystem.deinit cfg s x = t at hdeinit hzeroed hcreated ⊢
  rw [← hcreated] at hx
  dsimp only
  rw [if_pos (hdeinit.allowed x hx)]
  have howned : (t.arenas x).owned cfg = none := by rw [hzeroed, owned_zeroed]
  have hheld : held cfg { t.free x with created := t.created.erase x } =
      t.held cfg \ {.block x} := by
    ext q
    simp only [held, free, hdeinit.nodup.mem_erase_iff, Set.mem_ofPred_eq, Set.mem_sdiff,
      Set.mem_singleton_iff]
    constructor
    · rintro (⟨z, ⟨hzx, hz⟩, rfl⟩ | ⟨y, hy⟩)
      · exact ⟨.inl ⟨z, hz, rfl⟩, fun heq => hzx (Resource.block.inj heq)⟩
      · refine ⟨.inr ⟨y, hy⟩, fun heq => ?_⟩
        rw [heq] at hy
        exact hdeinit.backing y x hy hx
    · rintro ⟨⟨z, hz, rfl⟩ | ⟨y, hy⟩, hqx⟩
      · exact .inl ⟨z, ⟨fun hzx => hqx (congrArg _ hzx), hz⟩, rfl⟩
      · exact .inr ⟨y, hy⟩
  refine ⟨hdeinit.nodup.erase x, fun y hy => hdeinit.allowed y (List.mem_of_mem_erase hy), ?_, ?_,
    ?_, hdeinit.once, fun y p hp hmem => hdeinit.backing y p hp (List.mem_of_mem_erase hmem)⟩
  · exact hheld ▸ hdeinit.holds.destroy (.inl ⟨x, hx, rfl⟩)
  · intro q hq
    exact hdeinit.before q (hheld.le hq).1
  · intro y r hr
    refine (hdeinit.nodup.mem_erase_iff).mpr ⟨fun hyx => ?_, hdeinit.created y r hr⟩
    rw [hyx] at hr
    exact absurd (howned.symm.trans hr) (by rintro ⟨⟩)

/-! ## Creating an arena -/

end ArenaSystem

/-- What was obtained by an earlier request. -/
theorem Resource.Before.ne {n : ℕ} {q r : Resource w} (hq : q.Before n)
    (hr : r = .block (.heap n) ∨ ∃ bytes, r = .mapping (.mapping n) bytes) : q ≠ r := by
  rintro rfl
  rcases hr with rfl | ⟨bytes, rfl⟩
  · obtain ⟨k, hk, heq⟩ := hq
    exact hk.ne (MemoryPtr.heap.inj heq).symm
  · obtain ⟨k, hk, heq⟩ := hq
    exact hk.ne (MemoryPtr.mapping.inj heq).symm

namespace ArenaSystem

/-- An arena that is created, and its backing. -/
def withCreated (s : ArenaSystem w) (a : ArenaObject w) (r : Resource w) : ArenaSystem w :=
  { s with
    arenas := Function.update s.arenas (.heap s.requests) a
    resources := (s.resources.construct (.block (.heap s.requests)) true).construct r true
    requests := s.requests + 2
    created := .heap s.requests :: s.created
    known := .heap s.requests :: s.known }

/-- **Creating an arena** obtains two resources, or has given back all that it obtained. -/
theorem Accounts.create_cases (h : Accounts cfg s) (bytes : BitVec w) (backing : ArenaBacking)
    (out : Bool) :
    (∃ st l requests, createWithBacking cfg s bytes backing out =
        ((st, none), { s with resources := l, requests := requests }) ∧
        l.Holds (s.held cfg) ∧ s.requests ≤ requests) ∨
      ∃ a r, createWithBacking cfg s bytes backing out =
          ((.ok, some (.heap s.requests)), s.withCreated a r) ∧
        Obtained cfg (s.requests + 1) bytes a r ∧ (cfg.allowHeap || cfg.allowMmap) = true := by
  have hfail : ∀ st, ∃ st' l requests,
      (((st, none), s) : (ArenaStatus × Option MemoryPtr) × ArenaSystem w) =
        ((st', none), { s with resources := l, requests := requests }) ∧
        l.Holds (s.held cfg) ∧ s.requests ≤ requests :=
    fun st => ⟨st, _, _, rfl, h.holds, le_rfl⟩
  unfold createWithBacking
  split
  · exact .inl (hfail _)
  split
  · exact .inl (hfail _)
  unfold createImpl
  split
  · exact .inl (hfail _)
  split
  · exact .inl (hfail _)
  split
  swap
  · exact .inl (hfail _)
  next hallowed =>
  unfold malloc
  by_cases hgrants : cfg.grants s.requests cfg.arenaBytes = true
  swap
  · refine .inl ⟨.oom, s.resources, s.requests + 1, ?_, h.holds, Nat.le_succ _⟩
    simp [hgrants]
  -- the arena itself
  have hnew : Resource.block (.heap s.requests) ∉ s.held cfg := fun hmem =>
    (h.before _ hmem).ne (.inl rfl) rfl
  have hholds := h.holds.construct hnew
  simp only [if_pos hgrants, reduceCtorEq, if_false]
  rcases acquireBacking_cases cfg
      { s with
        resources := s.resources.construct (.block (.heap s.requests)) true
        requests := s.requests + 1 } bytes backing with
    ⟨st, a, requests, hst, hle, hacquire⟩ | ⟨a, r, hacquire, hobtained⟩
  · left
    rw [hacquire]
    have hback := hholds.destroy (Set.mem_insert _ _)
    rw [Set.insert_sdiff_self_of_notMem hnew] at hback
    exact ⟨st, _, requests, by simp only [if_pos hst]; rfl, hback, (Nat.le_succ _).trans hle⟩
  · right
    rw [hacquire]
    exact ⟨a, r, by simp [withCreated], hobtained, hallowed⟩

theorem Accounts.withCreated (h : Accounts cfg s) (hidle : s.arenas (.heap s.requests) = .zeroed)
    {bytes : BitVec w} {r : Resource w} (hobtained : Obtained cfg (s.requests + 1) bytes a r)
    (hallowed : (cfg.allowHeap || cfg.allowMmap) = true) : Accounts cfg (s.withCreated a r) := by
  have hnew : Resource.block (.heap s.requests) ∉ s.held cfg := fun hmem =>
    (h.before _ hmem).ne (.inl rfl) rfl
  have hnot : MemoryPtr.heap s.requests ∉ s.created := fun hmem => hnew (.inl ⟨_, hmem, rfl⟩)
  have hbefore : ∀ q ∈ s.held cfg, q.Before (s.requests + 1) := fun q hq =>
    (h.later h.holds (Nat.le_succ _)).before q hq
  have hblock : (Resource.block (.heap s.requests) : Resource w).Before (s.requests + 1) :=
    ⟨_, Nat.lt_succ_self _, rfl⟩
  have hfresh : r ∉ insert (Resource.block (.heap s.requests)) (s.held cfg) := by
    rintro (heq | hmem)
    · exact hblock.ne hobtained.number heq.symm
    · exact (hbefore r hmem).ne hobtained.number rfl
  -- the arena had nothing to give back before
  have hiff : ∀ y q, ((s.withCreated a r).arenas y).owned cfg = some q ↔
      (y = .heap s.requests ∧ q = r) ∨ (s.arenas y).owned cfg = some q := by
    intro y q
    by_cases hy : y = .heap s.requests
    · subst hy
      simp [ArenaSystem.withCreated, hobtained.owned, hidle, eq_comm]
    · simp [ArenaSystem.withCreated, hy]
  have hheld : (s.withCreated a r).held cfg =
      insert r (insert (.block (.heap s.requests)) (s.held cfg)) := by
    ext q
    simp only [held, hiff, Set.mem_ofPred_eq, Set.mem_insert_iff]
    simp only [ArenaSystem.withCreated, List.mem_cons]
    constructor
    · rintro (⟨z, rfl | hz, rfl⟩ | ⟨y, ⟨-, rfl⟩ | hy⟩)
      · exact .inr (.inl rfl)
      · exact .inr (.inr (.inl ⟨z, hz, rfl⟩))
      · exact .inl rfl
      · exact .inr (.inr (.inr ⟨y, hy⟩))
    · rintro (rfl | rfl | ⟨z, hz, rfl⟩ | ⟨y, hy⟩)
      · exact .inr ⟨_, .inl ⟨rfl, rfl⟩⟩
      · exact .inl ⟨_, .inl rfl, rfl⟩
      · exact .inl ⟨z, .inr hz, rfl⟩
      · exact .inr ⟨y, .inr hy⟩
  have howned : ∀ y, (s.arenas y).owned cfg = some r → False := fun y hy =>
    hfresh (.inr (.inr ⟨y, hy⟩))
  refine ⟨List.nodup_cons.mpr ⟨hnot, h.nodup⟩, fun _ _ => hallowed, ?_, ?_, ?_, ?_, ?_⟩
  · exact hheld ▸ (h.holds.construct hnew).construct hfresh
  · intro q hq
    rcases hheld.le hq with rfl | rfl | hmem
    · rcases hobtained.number with rfl | ⟨bytes, rfl⟩
      · exact ⟨_, Nat.lt_succ_self _, rfl⟩
      · exact ⟨_, Nat.lt_succ_self _, rfl⟩
    · exact ⟨_, Nat.lt_succ_of_lt (Nat.lt_succ_self _), rfl⟩
    · exact (h.later h.holds (show s.requests ≤ s.requests + 2 by omega)).before q hmem
  · intro y q hq
    rcases (hiff y q).mp hq with ⟨rfl, -⟩ | hy
    · exact List.mem_cons_self
    · exact List.mem_cons_of_mem _ (h.created y q hy)
  · intro y z q hy hz
    rcases (hiff y q).mp hy with ⟨hy', hq⟩ | hy <;> rcases (hiff z q).mp hz with ⟨hz', hq'⟩ | hz
    · exact hy'.trans hz'.symm
    · exact (howned z (hq ▸ hz)).elim
    · exact (howned y (hq' ▸ hy)).elim
    · exact h.once y z q hy hz
  · intro y p hp hmem
    rcases (hiff y _).mp hp with ⟨-, rfl⟩ | hy
    · rcases List.mem_cons.mp hmem with rfl | hmem
      · exact hfresh (.inl rfl)
      · exact hfresh (.inr (.inl ⟨p, hmem, rfl⟩))
    · rcases List.mem_cons.mp hmem with rfl | hmem
      · exact hnew (.inr ⟨y, hy⟩)
      · exact h.backing y p hy hmem

/-- Only the calls on an arena write to memory. -/
theorem Accounts.memory_eq (h : Accounts cfg s) {c : Call w} (hc : ∀ y c', c ≠ .use y c') :
    (call cfg s c).2.memory = s.memory := by
  have htouch : ∀ y, (s.touch y).memory = s.memory := fun y => by cases y <;> rfl
  have hcreate : ∀ bytes backing out,
      (createWithBacking cfg s bytes backing out).2.memory = s.memory := by
    intro bytes backing out
    rcases h.create_cases bytes backing out with ⟨_, _, _, hcreate, -⟩ | ⟨_, _, hcreate, -⟩ <;>
      rw [hcreate]
    rfl
  have hdeinit : ∀ y, (ArenaSystem.deinit cfg s y).memory = s.memory := by
    intro y
    unfold ArenaSystem.deinit
    split
    · rfl
    · simp [releaseBacking_eq, htouch]
  cases c with
  | create bytes out => exact hcreate bytes _ out
  | createWithBacking bytes backing out => exact hcreate bytes backing out
  | init y config =>
    rcases init_eq s y config with ⟨st, hsame⟩ | ⟨_, _, _, _, hok⟩
    · simp [call, hsame]
    · simp [call, hok, htouch]
  | deinit y => exact hdeinit y
  | destroy y =>
    show (ArenaSystem.destroy cfg s y).memory = s.memory
    unfold ArenaSystem.destroy
    split
    · rfl
    · split
      · exact hdeinit y
      · exact hdeinit y
  | use y c => exact absurd rfl (hc y c)

end ArenaSystem

end Memkit
