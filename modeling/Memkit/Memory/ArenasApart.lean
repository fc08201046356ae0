import Memkit.Memory.ArenaAccounts

/-! # Arenas lie apart

* **`Layout`** — the arenas lie apart, and the blocks of each are sound.
* **`Layout.replace`** — a call replaces one arena, and leaves the others.
* **`arenas_apart`** — after any proper calls all blocks of all arenas are disjoint, no call but a
  write of the user changes them, and everything that was obtained is given back once. -/

namespace Memkit

variable {w : ℕ}

namespace ArenaSystem

/-- The arenas lie apart, and the blocks of each are sound. -/
structure Layout (cfg : ArenaPlatform w) (s : ArenaSystem w) : Prop where
  idle : ∀ x, (s.arenas x).base = .null → s.arenas x = .zeroed ∧ s.blocks x = []
  usable : ∀ x, (s.arenas x).base ≠ .null → s.Usable x ∧ x ≠ .null ∧ x ∈ s.known
  history : ∀ x, ArenaHistory.Inv (cfg.addr (s.arenas x).base) (s.arenas x).capacityBytes
    (s.history cfg x)
  fits : ∀ x, (cfg.addr (s.arenas x).base).toNat + (s.arenas x).capacityBytes.toNat ≤ 2 ^ w
  apart : ∀ x y, x ≠ y → (s.arenas x).base ≠ .null → (s.arenas y).base ≠ .null →
    ((s.arenas x).extent cfg).Disjoint ((s.arenas y).extent cfg)

variable {cfg : ArenaPlatform w} {s t : ArenaSystem w} {x y : MemoryPtr} {a : ArenaObject w}

theorem layout_start (cfg : ArenaPlatform w) (memory : BitVec w → BitVec 8) :
    Layout cfg (start memory) where
  idle _ _ := ⟨rfl, rfl⟩
  usable x hx := absurd rfl hx
  history x := ArenaHistory.inv_init (cfg.addr .null) 0 memory
  fits x := by
    have hnull := (cfg.addr_eq_zero .null).mpr rfl
    simp [start, ArenaObject.zeroed, hnull]
  apart x y _ hx := absurd rfl hx

/-- Only the ledger and the counter of requests have changed. -/
theorem Layout.later (h : Layout cfg s) (l : Ledger (Resource w)) (requests : ℕ) :
    Layout cfg { s with resources := l, requests := requests } :=
  ⟨h.idle, h.usable, h.history, h.fits, h.apart⟩

/-- **One arena is replaced**: the others keep their memory and their blocks. -/
theorem Layout.replace (h : Layout cfg s) (harenas : t.arenas = Function.update s.arenas x a)
    (hblocks : ∀ y, y ≠ x → t.blocks y = s.blocks y) (hknown : ∀ y ∈ s.known, y ∈ t.known)
    (husable : ∀ y, y ≠ x → s.Usable y → t.Usable y)
    (hidle : a.base = .null → a = .zeroed ∧ t.blocks x = [])
    (hused : a.base ≠ .null → (t.Usable x ∧ x ≠ .null ∧ x ∈ t.known) ∧ Separate cfg t x)
    (hhistory : ArenaHistory.Inv (cfg.addr a.base) a.capacityBytes (t.history cfg x)) :
    Layout cfg t := by
  have hself : t.arenas x = a := by rw [harenas, Function.update_self]
  have hother : ∀ y, y ≠ x → t.arenas y = s.arenas y := fun y hy => by
    rw [harenas, Function.update_of_ne hy]
  refine ⟨fun y hy => ?_, fun y hy => ?_, fun y => ?_, fun y => ?_, fun y z hyz hy hz => ?_⟩
  · by_cases heq : y = x
    · rw [heq, hself] at hy ⊢
      exact hidle hy
    · rw [hother y heq] at hy ⊢
      rw [hblocks y heq]
      exact h.idle y hy
  · by_cases heq : y = x
    · rw [heq, hself] at hy
      rw [heq]
      exact (hused hy).1
    · rw [hother y heq] at hy
      obtain ⟨hyusable, hynull, hyknown⟩ := h.usable y hy
      exact ⟨husable y heq hyusable, hynull, hknown y hyknown⟩
  · by_cases heq : y = x
    · rw [heq, hself]
      exact hhistory
    · have hinv := h.history y
      have harena := hother y heq
      have hblock := hblocks y heq
      -- the invariant does not speak of the contents of the memory
      refine ⟨?_, ?_, ?_, ?_, ?_, ?_⟩ <;>
        simp only [ArenaSystem.history, harena, hblock]
      · exact hinv.offset_le
      · exact hinv.aligned
      · exact hinv.inside
      · exact hinv.disjoint
  · by_cases heq : y = x
    · rw [heq]
      by_cases hbase : a.base = .null
      · have hnull := (cfg.addr_eq_zero .null).mpr rfl
        rw [hself, (hidle hbase).1]
        simp [ArenaObject.zeroed, hnull]
      · exact (hused hbase).2.1
    · rw [hother y heq]
      exact h.fits y
  · by_cases hyx : y = x
    · have hzx : z ≠ x := fun hzx => hyz (hyx.trans hzx.symm)
      rw [hyx] at hy ⊢
      rw [hself] at hy
      have hbase := hz
      rw [hother z hzx] at hbase
      exact (hused hy).2.2 z (hknown z (h.usable z hbase).2.2) hzx hz
    · by_cases hzx : z = x
      · rw [hzx] at hz ⊢
        rw [hself] at hz
        have hbase := hy
        rw [hother y hyx] at hbase
        exact ((hused hz).2.2 y (hknown y (h.usable y hbase).2.2) hyx hy).symm
      · rw [hother y hyx] at hy ⊢
        rw [hother z hzx] at hz ⊢
        exact h.apart y z hyz hy hz

/-! ## Calls on an arena -/

/-- An arena without memory stays without blocks. -/
theorem step_idle {h : ArenaHistory w} (hbase : h.arena.base = 0) (hoffset : h.arena.offset = 0)
    (hcount : h.arena.count = 0) (hblocks : h.blocks = []) (c : ArenaHistory.Call w) :
    (h.step c).2.arena.offset = 0 ∧ (h.step c).2.arena.count = 0 ∧ (h.step c).2.blocks = [] := by
  have hinvalid : h.arena.isValid = false := by simp [Arena.isValid, hbase]
  have halloc : ∀ size alignment out, ∃ ptr,
      h.arena.alloc size alignment out = ((.null, ptr), h.arena) := by
    intro size alignment out
    unfold Arena.alloc
    by_cases hout : out = none
    · exact ⟨none, if_pos hout⟩
    · exact ⟨some 0, by rw [if_neg hout, if_pos hinvalid]⟩
  cases c with
  | alloc size alignment out =>
    obtain ⟨ptr, halloc⟩ := halloc size alignment out
    simp only [ArenaHistory.step, halloc]
    exact ⟨hoffset, hcount, hblocks⟩
  | calloc count size alignment out =>
    obtain ⟨ptr, halloc⟩ := halloc (count * size) alignment out
    simp only [ArenaHistory.step, Arena.calloc, halloc]
    split
    · exact ⟨hoffset, hcount, hblocks⟩
    · exact ⟨hoffset, hcount, hblocks⟩
  | reset => exact ⟨rfl, rfl, rfl⟩
  | write addr byte => exact ⟨hoffset, hcount, hblocks⟩

/-- The block of an allocation, if there is one, is new; nothing else in memory is changed by the
arena. -/
theorem step_memory {base capacity : BitVec w} {h : ArenaHistory w}
    (hinv : ArenaHistory.Inv base capacity h) (hfit : base.toNat + capacity.toNat ≤ 2 ^ w)
    {c : ArenaHistory.Call w} (hc : ∀ addr byte, c ≠ .write addr byte) :
    (h.step c).2.arena.memory = h.arena.memory ∨
      ∃ b, (h.step c).2.blocks = b :: h.blocks ∧
        (h.step c).2.arena.memory = Arena.zero h.arena.memory b.addr b.size := by
  have hfit' : h.arena.base.toNat + h.arena.capacity.toNat ≤ 2 ^ w := by
    rwa [hinv.base_eq, hinv.capacity_eq]
  cases c with
  | alloc size alignment out =>
    left
    rcases Arena.alloc_cases hfit' size alignment out with
      ⟨ptr, a', halloc, hplaced⟩ | ⟨status, ptr, hstatus, halloc⟩
    · have hmemory : a'.memory = h.arena.memory := by rw [hplaced.frame]
      simp [ArenaHistory.step, ArenaHistory.record, halloc, hmemory]
    · simp [ArenaHistory.step, ArenaHistory.record_refused h _ _ hstatus, halloc]
  | calloc count size alignment out =>
    rcases Arena.calloc_cases hfit' count size alignment out with
      ⟨ptr, a', hcalloc, hplaced, -⟩ | ⟨status, ptr, hstatus, hcalloc⟩
    · have hmemory : a'.memory = h.arena.memory := by rw [hplaced.frame]
      refine .inr ⟨⟨ptr, count * size, alignment⟩, ?_, ?_⟩ <;>
        simp [ArenaHistory.step, ArenaHistory.record, hcalloc, hmemory]
    · left
      simp [ArenaHistory.step, ArenaHistory.record_refused h _ _ hstatus, hcalloc]
  | reset => exact .inl rfl
  | write addr byte => exact absurd rfl (hc addr byte)

theorem Layout.use (h : Layout cfg s) (hx : s.Usable x) (c : ArenaHistory.Call w) :
    Layout cfg (ArenaSystem.use cfg s x c).2 := by
  have hinv := ((h.history x).step (h.fits x) c).1
  obtain ⟨l, htouch⟩ := touch_eq s x
  rw [use_eq, htouch]
  refine h.replace rfl (fun y hy => Function.update_of_ne hy _ _) (fun y hy => hy)
    (fun y _ hy => hy.imp id) (fun hbase => ?_) (fun hbase => ?_) ?_
  · have hbase' : (s.arenas x).base = .null := hbase
    obtain ⟨hzeroed, hnone⟩ := h.idle x hbase'
    have hnull := (cfg.addr_eq_zero (s.arenas x).base).mpr hbase'
    obtain ⟨hoffset, hcount, hblocks⟩ := step_idle (h := s.history cfg x) hnull
      (by simp [ArenaSystem.history, hzeroed, ArenaObject.zeroed])
      (by simp [ArenaSystem.history, hzeroed, ArenaObject.zeroed]) hnone c
    refine ⟨?_, by simp [hblocks]⟩
    rw [hoffset, hcount, hzeroed]
    rfl
  · have hbase' : (s.arenas x).base ≠ .null := hbase
    obtain ⟨-, hnull, hknown⟩ := h.usable x hbase'
    refine ⟨⟨hx.imp id, hnull, hknown⟩, ?_, fun y hy hyx hybase => ?_⟩
    · simpa using h.fits x
    · simp only [Function.update_self, Function.update_of_ne hyx] at hybase ⊢
      exact h.apart x y hyx.symm hbase' hybase
  · refine ⟨?_, ?_, ?_, ?_, ?_, ?_⟩ <;> simp only [ArenaSystem.history, Function.update_self]
    · exact hinv.offset_le
    · exact hinv.aligned
    · exact hinv.inside
    · exact hinv.disjoint

/-- The blocks of an arena that has handed out none. -/
theorem history_fresh (hx : s.arenas x = a) (hoffset : a.offsetBytes = 0)
    (hcount : a.allocationCount = 0) (hblocks : s.blocks x = []) :
    ArenaHistory.Inv (cfg.addr a.base) a.capacityBytes (s.history cfg x) := by
  have hinit := ArenaHistory.inv_init (cfg.addr a.base) a.capacityBytes s.memory
  simpa [ArenaSystem.history, ArenaHistory.init, hx, hoffset, hcount, hblocks] using hinit

theorem Layout.init (h : Layout cfg s) {config : Option (ArenaConfig w)}
    (hinits : InitsSeparate cfg s x config) : Layout cfg (ArenaSystem.init s x config).2 := by
  obtain ⟨husable, -, -, hseparate⟩ := hinits
  rcases init_eq s x config with ⟨st, hsame⟩ | ⟨c, hc, hbacking, hnull, hok⟩
  · rw [hsame]
    exact h
  have htouch : (s.touch x).created = s.created ∧ (s.touch x).memory = s.memory := by
    cases x <;> exact ⟨rfl, rfl⟩
  rw [hok] at hseparate ⊢
  refine h.replace rfl (fun y hy => Function.update_of_ne hy _ _)
    (fun y hy => List.mem_cons_of_mem x hy) (fun y _ hy => hy.imp fun hmem => ?_)
    (fun hbase => absurd hbase hbacking) (fun _ => ⟨⟨husable.imp fun hmem => ?_, hnull,
      List.mem_cons_self⟩, hseparate rfl⟩)
    (history_fresh (Function.update_self ..) rfl rfl (Function.update_self ..))
  · rwa [htouch.1]
  · rwa [htouch.1]

theorem Layout.deinit (h : Layout cfg s) (x : MemoryPtr) :
    Layout cfg (ArenaSystem.deinit cfg s x) := by
  unfold ArenaSystem.deinit
  by_cases hnull : x = .null
  · rw [if_pos hnull]
    exact h
  obtain ⟨l, htouch⟩ := touch_eq s x
  rw [if_neg hnull, htouch, releaseBacking_eq]
  refine h.replace rfl (fun y hy => Function.update_of_ne hy _ _) (fun y hy => hy)
    (fun y _ hy => hy.imp id) (fun _ => ⟨rfl, Function.update_self ..⟩)
    (fun hbase => absurd rfl hbase) ?_
  have hinit := ArenaHistory.inv_init (cfg.addr .null) 0 s.memory
  simpa [ArenaSystem.history, ArenaObject.zeroed, ArenaHistory.init] using hinit

theorem Layout.destroy (h : Layout cfg s) (x : MemoryPtr) :
    Layout cfg (ArenaSystem.destroy cfg s x) := by
  unfold ArenaSystem.destroy
  by_cases hnull : x = .null
  · rw [if_pos hnull]
    exact h
  have hdeinit := h.deinit x
  have hzeroed : (ArenaSystem.deinit cfg s x).arenas x = .zeroed := by
    simp [ArenaSystem.deinit, hnull]
  rw [if_neg hnull]
  generalize ArenaSystem.deinit cfg s x = t at hdeinit hzeroed ⊢
  have hforget : ∀ l, Layout cfg { t with created := t.created.erase x, resources := l } := by
    refine fun l => ⟨hdeinit.idle, fun y hy => ?_, hdeinit.history, hdeinit.fits, hdeinit.apart⟩
    obtain ⟨husable, hynull, hknown⟩ := hdeinit.usable y hy
    refine ⟨husable.imp fun hmem => ?_, hynull, hknown⟩
    refine (List.mem_erase_of_ne fun hyx => hy ?_).mpr hmem
    rw [hyx]
    show (t.arenas x).base = .null
    rw [hzeroed]
    rfl
  dsimp only
  split
  · exact hforget _
  · exact hforget _

/-! ## Creating an arena -/

theorem Layout.withCreated (h : Layout cfg s) (hblocks : s.blocks (.heap s.requests) = [])
    {bytes : BitVec w} {r : Resource w} (hobtained : Obtained cfg (s.requests + 1) bytes a r)
    (hseparate : Separate cfg (s.withCreated a r) (.heap s.requests)) :
    Layout cfg (s.withCreated a r) :=
  h.replace rfl (fun _ _ => rfl) (fun _ hy => List.mem_cons_of_mem _ hy)
    (fun _ _ hy => hy.imp (List.mem_cons_of_mem _)) (fun hbase => absurd hbase hobtained.base_ne)
    (fun _ => ⟨⟨List.mem_cons_self, by rintro ⟨⟩, List.mem_cons_self⟩, hseparate⟩)
    (history_fresh (Function.update_self ..) hobtained.offset hobtained.count hblocks)

/-- **A call that creates**, likewise. -/
theorem create_inv (h : Accounts cfg s) (hl : Layout cfg s) (bytes : BitVec w)
    (backing : ArenaBacking) (out : Bool)
    (hseparate : CreatesSeparate cfg (createWithBacking cfg s bytes backing out)) :
    (Accounts cfg (createWithBacking cfg s bytes backing out).2 ∧
        Layout cfg (createWithBacking cfg s bytes backing out).2) ∧
      ∀ x ∈ (createWithBacking cfg s bytes backing out).1.2,
        bytes ≤ ((createWithBacking cfg s bytes backing out).2.arenas x).capacityBytes := by
  rcases h.create_cases bytes backing out with
    ⟨st, l, requests, hcreate, hholds, hle⟩ | ⟨a, r, hcreate, hobtained, hallowed⟩
  · rw [hcreate]
    exact ⟨⟨h.later hholds hle, hl.later l requests⟩, by rintro _ ⟨⟩⟩
  · rw [hcreate] at hseparate ⊢
    -- no arena had this number
    have hidle : (s.arenas (.heap s.requests)).base = .null := by
      by_contra hbase
      have hmem : MemoryPtr.heap s.requests ∈ s.created := (hl.usable _ hbase).1
      exact (h.before _ (.inl ⟨_, hmem, rfl⟩)).ne (.inl rfl) rfl
    obtain ⟨hzeroed, hblocks⟩ := hl.idle _ hidle
    refine ⟨⟨h.withCreated hzeroed hobtained hallowed,
      hl.withCreated hblocks hobtained (hseparate _ rfl)⟩, ?_⟩
    rintro _ ⟨⟩
    simpa [withCreated] using hobtained.enough

/-! ## Runs -/

/-- **One call** keeps what was obtained accounted for, and the arenas apart. -/
theorem call_inv (h : Accounts cfg s) (hl : Layout cfg s) (c : Call w) (hc : Proper cfg s c) :
    Accounts cfg (call cfg s c).2 ∧ Layout cfg (call cfg s c).2 := by
  cases c with
  | create bytes out => exact (create_inv h hl bytes _ out hc).1
  | createWithBacking bytes backing out => exact (create_inv h hl bytes backing out hc).1
  | init x config => exact ⟨h.init hc, hl.init hc⟩
  | deinit x => exact ⟨h.deinit hc, hl.deinit x⟩
  | destroy x =>
    rcases hc with rfl | hc
    · exact ⟨h, hl⟩
    · by_cases hnull : x = .null
      · subst hnull
        exact ⟨h, hl⟩
      · exact ⟨h.destroy hc hnull, hl.destroy x⟩
  | use x c => exact ⟨h.use hc c, hl.use hc c⟩

/-- Blocks of different arenas are disjoint. -/
theorem Layout.disjoint (h : Layout cfg s) (hxy : x ≠ y) {b c : ArenaBlock w} (hb : b ∈ s.blocks x)
    (hc : c ∈ s.blocks y) : b.Disjoint c := by
  have hx : (s.arenas x).base ≠ .null := fun hbase => by
    rw [(h.idle x hbase).2] at hb
    exact List.not_mem_nil hb
  have hy : (s.arenas y).base ≠ .null := fun hbase => by
    rw [(h.idle y hbase).2] at hc
    exact List.not_mem_nil hc
  obtain ⟨hblow, hbhigh⟩ := (h.history x).sound.inside b hb
  obtain ⟨hclow, hchigh⟩ := (h.history y).sound.inside c hc
  rcases h.apart x y hxy hx hy with hless | hless
  · left
    have : b.addr.toNat + b.size.toNat ≤ (cfg.addr (s.arenas y).base).toNat := hbhigh.trans hless
    omega
  · right
    have : c.addr.toNat + c.size.toNat ≤ (cfg.addr (s.arenas x).base).toNat := hchigh.trans hless
    omega

/-- Zeroing a block leaves the bytes of the others. -/
theorem zero_disjoint {memory : BitVec w → BitVec 8} {b c : ArenaBlock w} (hbc : b.Disjoint c)
    (hb : b.addr.toNat + b.size.toNat ≤ 2 ^ w) (hc : c.addr.toNat + c.size.toNat ≤ 2 ^ w) {i : ℕ}
    (hi : i < b.size.toNat) :
    Arena.zero memory c.addr c.size (b.addr + BitVec.ofNat w i) =
      memory (b.addr + BitVec.ofNat w i) := by
  have haddr : (b.addr + BitVec.ofNat w i).toNat = b.addr.toNat + i := by
    have hsize := b.size.isLt
    rw [BitVec.toNat_add, BitVec.toNat_ofNat, Nat.mod_eq_of_lt (show i < 2 ^ w by omega),
      Nat.mod_eq_of_lt (by omega)]
  refine if_neg fun hless => ?_
  have hcaddr := c.addr.isLt
  rw [BitVec.lt_def, BitVec.toNat_sub, haddr] at hless
  rcases hbc with hbc | hbc
  · -- the address is below the block that is zeroed: the distance wraps
    rw [Nat.mod_eq_of_lt (by omega)] at hless
    omega
  · rw [show 2 ^ w - c.addr.toNat + (b.addr.toNat + i) = b.addr.toNat + i - c.addr.toNat + 2 ^ w by
      omega, Nat.add_mod_right, Nat.mod_eq_of_lt (by omega)] at hless
    omega

/-- A block does not wrap. -/
theorem Layout.block_le (h : Layout cfg s) {b : ArenaBlock w} (hb : b ∈ s.blocks x) :
    b.addr.toNat + b.size.toNat ≤ 2 ^ w :=
  ((h.history x).sound.inside b hb).2.trans (h.fits x)

/-- **No call but a write changes a block**: what the user keeps in a block stays there. -/
theorem Layout.keeps (h : Accounts cfg s) (hl : Layout cfg s) {c : Call w} (hc : Proper cfg s c)
    (hwrites : c.writes = false) {b : ArenaBlock w} (hb : b ∈ s.blocks x) {i : ℕ}
    (hi : i < b.size.toNat) :
    (call cfg s c).2.memory (b.addr + BitVec.ofNat w i) = s.memory (b.addr + BitVec.ofNat w i) := by
  by_cases huse : ∀ y c', c ≠ .use y c'
  · rw [h.memory_eq huse]
  push Not at huse
  obtain ⟨y, c, rfl⟩ := huse
  have hnot : ∀ addr byte, c ≠ .write addr byte := by
    rintro addr byte rfl
    cases hwrites
  have hnext := hl.use hc c
  rcases step_memory (hl.history y) (hl.fits y) hnot with hsame | ⟨b', hblocks, hzero⟩
  · exact congrFun hsame _
  -- a block of `arena_calloc`, which is none of those before
  have hb' : b' ∈ (ArenaSystem.use cfg s y c).2.blocks y := by
    rw [use_eq]
    simp [hblocks]
  have hdisjoint : b.Disjoint b' := by
    by_cases hxy : x = y
    · subst hxy
      have hpairs := ((hl.history x).step (hl.fits x) c).1.disjoint
      rw [hblocks] at hpairs
      exact ((List.pairwise_cons.mp hpairs).1 b hb).symm
    · refine hnext.disjoint hxy ?_ hb'
      rw [use_eq]
      simpa [Function.update_of_ne hxy] using hb
  refine (congrFun hzero _).trans ?_
  exact zero_disjoint hdisjoint (hl.block_le hb) (hnext.block_le hb') hi

/-- What a run of proper calls leaves. -/
structure Apart (cfg : ArenaPlatform w) (s : ArenaSystem w) : Prop where
  /-- Nothing was given back twice, and what is not given back is an arena that was created or the
  memory of one. -/
  holds : s.resources.Holds (s.held cfg)
  /-- When no arena is left that was created, everything was given back. -/
  settled : s.created = [] → s.resources.Settled
  inside : ∀ x, ∀ b ∈ s.blocks x, b.addr.toNat % b.alignment.toNat = 0 ∧
    ((s.arenas x).extent cfg).addr.toNat ≤ b.addr.toNat ∧
    b.addr.toNat + b.size.toNat ≤
      ((s.arenas x).extent cfg).addr.toNat + ((s.arenas x).extent cfg).size.toNat
  disjoint : ∀ x, (s.blocks x).Pairwise ArenaBlock.Disjoint
  apart : ∀ x y, x ≠ y → ∀ b ∈ s.blocks x, ∀ c ∈ s.blocks y, b.Disjoint c
  /-- The next call changes no byte of a block, unless it is a write of the user. -/
  keeps : ∀ c, Proper cfg s c → c.writes = false → ∀ x, ∀ b ∈ s.blocks x, ∀ i < b.size.toNat,
    (call cfg s c).2.memory (b.addr + BitVec.ofNat w i) = s.memory (b.addr + BitVec.ofNat w i)
  /-- An arena that it creates has at least the bytes asked for. -/
  enough : ∀ bytes backing out, CreatesSeparate cfg (createWithBacking cfg s bytes backing out) →
    ∀ x ∈ (createWithBacking cfg s bytes backing out).1.2,
      bytes ≤ ((createWithBacking cfg s bytes backing out).2.arenas x).capacityBytes

/-- **Arenas lie apart**: after any proper calls, whatever the heap and the system answered. -/
theorem arenas_apart (cfg : ArenaPlatform w) (memory : BitVec w → BitVec 8) (calls : List (Call w))
    (hrun : Mealy.EveryCall (call cfg) (Proper cfg) (start memory) calls) :
    Apart cfg (Mealy.final (call cfg) (start memory) calls) := by
  obtain ⟨h, hl⟩ := hrun.final_invariant (fun s => Accounts cfg s ∧ Layout cfg s)
    (fun s c hs hc => call_inv hs.1 hs.2 c hc) ⟨accounts_start cfg memory, layout_start cfg memory⟩
  generalize Mealy.final (call cfg) (start memory) calls = s at h hl ⊢
  refine ⟨h.holds, fun hnone => ?_, fun x b hb => ?_, fun x => (hl.history x).disjoint,
    fun x y hxy b hb c hc => hl.disjoint hxy hb hc,
    fun c hc hwrites x b hb i hi => hl.keeps h hc hwrites hb hi,
    fun bytes backing out hseparate => (create_inv h hl bytes backing out hseparate).2⟩
  · have hempty : s.held cfg = ∅ := by
      refine Set.eq_empty_of_forall_notMem fun r hr => ?_
      rcases hr with ⟨x, hx, -⟩ | ⟨x, hx⟩
      · rw [hnone] at hx
        exact List.not_mem_nil hx
      · have hmem := h.created x r hx
        rw [hnone] at hmem
        exact List.not_mem_nil hmem
    exact Ledger.Holds.settled (hempty ▸ h.holds)
  · exact ⟨(hl.history x).aligned b hb, (hl.history x).sound.inside b hb⟩

/-- Pages of 16 bytes and a heap that refuses the fifth request; addresses of 16 bits. -/
def pagesOf16 : ArenaPlatform 16 where
  allowHeap := true
  allowMmap := true
  defaultBacking := .heap
  arenaBytes := 20
  pageSize := 16
  grants n _ := n != 4
  maps _ bytes := bytes != 0
  addr
    | .null => 0
    | .given n => 0x100 + 0x100 * BitVec.ofNat 16 (n % 8)
    | .heap n => 0x1000 + 0x100 * BitVec.ofNat 16 (n % 8)
    | .mapping n => 0x2000 + 0x100 * BitVec.ofNat 16 (n % 8)
  maps_zero _ := rfl
  addr_eq_zero ptr := by
    have hne : ∀ k < 8, (0x100 + 0x100 * BitVec.ofNat 16 k ≠ 0 ∧
        0x1000 + 0x100 * BitVec.ofNat 16 k ≠ 0) ∧ 0x2000 + 0x100 * BitVec.ofNat 16 k ≠ 0 := by
      decide
    cases ptr with
    | null => simp
    | given n => simpa using (hne (n % 8) (Nat.mod_lt _ (by decide))).1.1
    | heap n => simpa using (hne (n % 8) (Nat.mod_lt _ (by decide))).1.2
    | mapping n => simpa using (hne (n % 8) (Nat.mod_lt _ (by decide))).2

/-- An arena of the user, one of the heap and one of a mapping; the memory of a fourth is
refused. -/
def threeArenas : List (Call 16) :=
  [.init (.given 0) (some ⟨.given 1, 32, ⟨false, true, false⟩⟩), .create 24 true,
    .createWithBacking 20 .mmap true, .create 8 true, .use (.given 0) (.alloc 8 4 (some 0)),
    .use (.heap 0) (.calloc 2 4 8 (some 0)), .use (.heap 2) (.alloc 32 16 (some 0)),
    .use (.heap 2) (.write 0x2305 7), .use (.heap 0) .reset, .destroy (.heap 0), .destroy (.heap 2)]

theorem arenas_apart_three :
    let s := Mealy.final (call pagesOf16) (start fun _ => 0) threeArenas
    s.resources.Settled ∧ s.memory 0x2305 = 7 ∧ (s.blocks (.given 0)).map (·.addr) = [0x200] := by
  have hapart := arenas_apart pagesOf16 (fun _ => 0) threeArenas (by decide +kernel)
  exact ⟨hapart.settled (by decide +kernel), by decide +kernel, by decide +kernel⟩

end ArenaSystem

end Memkit
