import Memkit.Caching.LruCacheOperations

/-! # Does the LRU cache keep its entry slots?

* **`SlotsConserved`** — every entry slot is on the free list exactly once, or on the recency list
  exactly once and on exactly one hash chain.
* **`Accounted`** — the invariant behind it: the cache has a shape in which no slot is missing.
* **`Unspoiled`** — the calls that keep it: all but a put of a new key into a full cache one of
  whose copies fails. By then the victim is off every list, and nothing puts it back.
* **`slots_conserved_iff_unspoiled`** — so the slots are conserved in exactly the runs of unspoiled
  calls. -/

namespace Memkit

open LinkedChain

namespace LruCache

variable {w : ℕ} {K V : Type*} {cfg : LruConfig w K V} {s : LruCache K V} {free lru : List ℕ}
  {chain : ℕ → List ℕ} {i : ℕ} {c : Call K V}

/-! ## Conservation of the slots -/

/-- The lists that the links of the cache spell out. -/
structure Spells (cfg : LruConfig w K V) (s : LruCache K V) (free lru : List ℕ)
    (chain : ℕ → List ℕ) : Prop where
  free_list : Seg s.links.hashNext s.links.freeList free none
  recency_list : s.recency.Walks lru
  hash_chains : ∀ b < cfg.bucketCount, Seg s.links.hashNext (s.links.buckets b) (chain b) none

/-- Slot `i` is on the free list exactly once, and on no other list. -/
def IsFree (n : ℕ) (free lru : List ℕ) (chain : ℕ → List ℕ) (i : ℕ) : Prop :=
  free.count i = 1 ∧ i ∉ lru ∧ ∀ b < n, i ∉ chain b

/-- Slot `i` is on the recency list exactly once and on exactly one chain, exactly once, and not on
the free list. -/
def IsLive (n : ℕ) (free lru : List ℕ) (chain : ℕ → List ℕ) (i : ℕ) : Prop :=
  i ∉ free ∧ lru.count i = 1 ∧
    ∃ b < n, (chain b).count i = 1 ∧ ∀ c < n, i ∈ chain c → c = b

/-- **No slot is lost**: each of the `capacity` slots is free or live, and the live and the free
slots are `capacity` together. -/
def SlotsConserved (cfg : LruConfig w K V) (s : LruCache K V) : Prop :=
  ∃ free lru chain, Spells cfg s free lru chain ∧
    (∀ i < cfg.capacity,
      IsFree cfg.bucketCount free lru chain i ∨ IsLive cfg.bucketCount free lru chain i) ∧
    s.size = lru.length ∧ s.size + free.length = cfg.capacity

/-- The two copies of a put succeed, whatever they copy over. -/
def CopiesSucceed (cfg : LruConfig w K V) (s : LruCache K V) (key : K) (value : V) : Prop :=
  (∀ dst, (cfg.keyPolicy.copyConstruct s.copies dst key).1 = .ok) ∧
    ∀ dst, (cfg.valuePolicy.copyConstruct (s.copies + 1) dst value).1 = .ok

/-- A put of a new key whose copies succeed does not return full. -/
def PutServed (cfg : LruConfig w K V) (s : LruCache K V) (c : Call K V) : Prop :=
  ∀ key value, c = .put (some key) (some value) → contains cfg s (some key) = .contains false →
    CopiesSucceed cfg s key value → (call cfg s c).1 ≠ .put .full

/-- The call leaves no slot lost, and serves a put whose copies succeed. -/
def Conserves (cfg : LruConfig w K V) (s : LruCache K V) (c : Call K V) : Prop :=
  SlotsConserved cfg (call cfg s c).2 ∧ PutServed cfg s c

/-- **The condition**: not a put of a new key into a full cache, over the contents of the victim, of
which one copy fails. -/
def Unspoiled (cfg : LruConfig w K V) (s : LruCache K V) : Call K V → Prop
  | .put (some key) (some value) =>
    contains cfg s (some key) = .contains false → s.links.freeList = none →
      ∀ victim ∈ s.recency.tail, CopiesOk cfg (destroyEntry cfg s victim) victim key value
  | _ => True

instance [DecidableEq V] (cfg : LruConfig w K V) (s : LruCache K V) :
    ∀ c, Decidable (Unspoiled cfg s c)
  | .put (some key) (some value) =>
    inferInstanceAs (Decidable (contains cfg s (some key) = .contains false →
      s.links.freeList = none →
        ∀ victim ∈ s.recency.tail, CopiesOk cfg (destroyEntry cfg s victim) victim key value))
  | .put none _ => isTrue trivial
  | .put (some _) none => isTrue trivial
  | .get _ _ => isTrue trivial
  | .peek _ _ => isTrue trivial
  | .touch _ => isTrue trivial
  | .remove _ => isTrue trivial
  | .contains _ => isTrue trivial
  | .clear => isTrue trivial

/-! ## The invariant -/

/-- The cache has a shape in which every slot is free or live. -/
def Accounted (cfg : LruConfig w K V) (s : LruCache K V) : Prop :=
  ∃ free lru chain, Shape cfg s free lru chain ∧ free.length + lru.length = cfg.capacity

/-- A shape says what the links spell out. -/
theorem Shape.spells (h : Shape cfg s free lru chain) : Spells cfg s free lru chain :=
  ⟨h.links.free_walk, h.recency, h.links.chains⟩

/-- The links spell out one free list and one recency list. -/
theorem Spells.unique {free' lru' : List ℕ} {chain' : ℕ → List ℕ} (h : Spells cfg s free lru chain)
    (h' : Spells cfg s free' lru' chain') : free = free' ∧ lru = lru' :=
  ⟨h.free_list.unique h'.free_list, h.recency_list.1.unique h'.recency_list.1⟩

/-- If no slot is missing, every slot is on one of the two lists. -/
theorem Shape.mem_of_length (h : Shape cfg s free lru chain)
    (hcap : free.length + lru.length = cfg.capacity) (hi : i < cfg.capacity) : i ∈ free ++ lru := by
  have hrange : free ++ lru ⊆ List.range cfg.capacity :=
    fun j hj => List.mem_range.mpr (h.bound j hj)
  have hlen : (List.range cfg.capacity).length ≤ (free ++ lru).length := by
    rw [List.length_range, List.length_append, hcap]
  exact ((h.nodup.subperm hrange).perm_of_length_le hlen).mem_iff.mpr (List.mem_range.mpr hi)

/-- **An accounted cache has lost no slot.** -/
theorem Accounted.slotsConserved (hbuckets : 0 < cfg.bucketCount) (h : Accounted cfg s) :
    SlotsConserved cfg s := by
  obtain ⟨free, lru, chain, h, hcap⟩ := h
  refine ⟨free, lru, chain, h.spells, ?_, h.size, by rw [h.size]; omega⟩
  intro i hi
  obtain ⟨hfree, hlru, hdisj⟩ := List.nodup_append.mp h.nodup
  rcases List.mem_append.mp (h.mem_of_length hcap hi) with hmem | hmem
  · have hlive : i ∉ lru := fun hlive => hdisj i hmem i hlive rfl
    exact .inl ⟨List.count_eq_one_of_mem hfree hmem, hlive, h.notMem_chain hlive⟩
  · refine .inr ⟨fun hfree => hdisj i hfree i hmem rfl, List.count_eq_one_of_mem hlru hmem,
      bucketOf cfg (s.keys i), Nat.mod_lt _ hbuckets, ?_, ?_⟩
    · exact List.count_eq_one_of_mem (h.links.chain_nodup _ (Nat.mod_lt _ hbuckets))
        (h.mem_chain hbuckets hmem)
    · intro b hb hchain
      exact ((h.chain_mem b hb i).mp hchain).2.symm

/-- A slot that is on neither list is lost. -/
theorem Shape.not_slotsConserved (h : Shape cfg s free lru chain) (hi : i ∉ free ++ lru)
    (hcap : i < cfg.capacity) : ¬ SlotsConserved cfg s := by
  rintro ⟨free', lru', chain', hspells, hall, -⟩
  obtain ⟨rfl, rfl⟩ := h.spells.unique hspells
  rcases hall i hcap with ⟨hfree, -⟩ | ⟨-, hlive, -⟩
  · exact hi (List.mem_append_left _ (List.count_pos_iff.mp (by omega)))
  · exact hi (List.mem_append_right _ (List.count_pos_iff.mp (by omega)))

/-- `contains` tells whether a live key is equal. -/
theorem Shape.contains_eq_false (hlaw : cfg.hashEqPolicy.Lawful) (hbuckets : 0 < cfg.bucketCount)
    (h : Shape cfg s free lru chain) (key : K) :
    contains cfg s (some key) = .contains false ↔
      ∀ j ∈ lru, cfg.hashEqPolicy.equal (s.keys j) key = false := by
  rcases h.find hlaw hbuckets key with ⟨i, hi, hequal, -, as, bs, -, hfind⟩ | ⟨hnone, last, hfind⟩
  · simp only [contains, hfind]
    refine iff_of_false (by simp) fun hnone => ?_
    rw [hnone i hi] at hequal
    cases hequal
  · simp only [contains, hfind]
    exact iff_of_true rfl hnone

/-! ## One call -/

/-- A shape with as many slots as an accounted one is accounted. -/
theorem Accounted.of_perm {s' : LruCache K V}
    (hcap : free.length + lru.length = cfg.capacity)
    (h : ∃ lru', Shape cfg s' free lru' chain ∧ lru'.Perm lru) : Accounted cfg s' := by
  obtain ⟨lru', hshape, hperm⟩ := h
  exact ⟨free, lru', chain, hshape, by rw [hperm.length_eq]; exact hcap⟩

/-- What a put of a new key finds: a free slot, or a victim in a full cache. -/
theorem Shape.room (h : Shape cfg s free lru chain) (hcap₀ : 0 < cfg.capacity)
    (hcap : free.length + lru.length = cfg.capacity) :
    (∃ i rest, free = i :: rest ∧ s.links.freeList = some i) ∨
      ∃ init victim, free = [] ∧ lru = init ++ [victim] ∧ s.links.freeList = none ∧
        s.recency.tail = some victim ∧ cfg.capacity ≤ s.size := by
  cases free with
  | cons i rest => exact .inl ⟨i, rest, rfl, h.links.free_walk.1⟩
  | nil =>
    rw [List.length_nil, Nat.zero_add] at hcap
    have hne : lru ≠ [] := by
      rintro rfl
      rw [List.length_nil] at hcap
      omega
    have hlast : lru = lru.dropLast ++ [lru.getLast hne] := (List.dropLast_append_getLast hne).symm
    refine .inr ⟨_, _, rfl, hlast, h.links.free_walk, ?_, ?_⟩
    · rw [h.recency.tail_eq, List.getLast?_eq_getLast_of_ne_nil hne]
    · rw [h.size, hcap]

/-- **An unspoiled put** keeps the slots, and is served. -/
theorem Accounted.put (hlaw : cfg.hashEqPolicy.Lawful) (hcap₀ : 0 < cfg.capacity)
    (hbuckets : 0 < cfg.bucketCount) (hkey : cfg.keyPolicy.Faithful)
    (hval : cfg.valuePolicy.Faithful) (h : Accounted cfg s) {key : Option K} {value : Option V}
    (hgood : Unspoiled cfg s (.put key value)) :
    Accounted cfg (LruCache.put cfg s key value).2 ∧ PutServed cfg s (.put key value) := by
  have h' := h
  obtain ⟨free, lru, chain, h, hcap⟩ := h
  cases key with
  | none => exact ⟨h', nofun⟩
  | some key =>
    cases value with
    | none => exact ⟨h', nofun⟩
    | some value =>
      -- a put with this reply is served
      have hserved : ∀ st, (LruCache.put cfg s (some key) (some value)).1 = .put st →
          (CopiesSucceed cfg s key value →
            (∀ j ∈ lru, cfg.hashEqPolicy.equal (s.keys j) key = false) → st = .ok) →
          PutServed cfg s (.put (some key) (some value)) := by
        rintro st hst hok key' value' hput hnone hcopies hfull
        cases hput
        rw [h.contains_eq_false hlaw hbuckets] at hnone
        rw [call, hst, hok hcopies hnone] at hfull
        cases hfull
      by_cases hnone : ∀ j ∈ lru, cfg.hashEqPolicy.equal (s.keys j) key = false
      · rcases h.room hcap₀ hcap with ⟨i, rest, rfl, -⟩ | ⟨init, victim, rfl, rfl, hlist, htail, hfull⟩
        · -- the first free slot is filled, or put back
          rw [List.length_cons] at hcap
          by_cases hcopies : CopiesOk cfg s i key value
          · obtain ⟨s', chain', hput, hshape, -⟩ :=
              (put_new_free hlaw hbuckets hkey hval h hnone).1 hcopies
            refine ⟨?_, hserved .ok (by rw [hput]) fun _ _ => rfl⟩
            rw [hput]
            exact ⟨rest, i :: lru, chain', hshape, by rw [List.length_cons]; omega⟩
          · obtain ⟨st, s', -, hput, hshape, -⟩ :=
              (put_new_free hlaw hbuckets hkey hval h hnone).2 hcopies
            refine ⟨?_, hserved st (by rw [hput]) fun hsucceed => ?_⟩
            · rw [hput]
              exact ⟨i :: rest, lru, chain, hshape, by rw [List.length_cons]; omega⟩
            · exact absurd ⟨hsucceed.1 _, hsucceed.2 _⟩ hcopies
        · -- the victim's slot is filled
          have hcopies := hgood ((h.contains_eq_false hlaw hbuckets key).mpr hnone) hlist victim htail
          obtain ⟨s', chain', hput, hshape, -⟩ :=
            (put_new_full hlaw hbuckets hkey hval h hfull hnone).1 hcopies
          refine ⟨?_, hserved .ok (by rw [hput]) fun _ _ => rfl⟩
          rw [hput]
          exact ⟨[], victim :: init, chain', hshape, by simpa using hcap⟩
      · -- the key is stored: no slot moves
        rcases h.find hlaw hbuckets key with ⟨i, hi, hequal, -, as, bs, -, hfind⟩ | ⟨hnone', -⟩
        · have hperm : (i :: lru.erase i).Perm lru := (List.perm_cons_erase hi).symm
          by_cases hcopy : (cfg.valuePolicy.copyConstruct s.copies (s.values i) value).1 = .ok
          · obtain ⟨s', hput, hshape, -⟩ := (put_stored hlaw h hval hi hfind).1 hcopy
            refine ⟨?_, hserved .ok (by rw [hput]) fun _ _ => rfl⟩
            rw [hput]
            exact Accounted.of_perm hcap ⟨_, hshape, hperm⟩
          · obtain ⟨st, s', -, hput, hshape⟩ := (put_stored hlaw h hval hi hfind).2 hcopy
            refine ⟨?_, hserved st (by rw [hput]) fun _ hnone' => absurd hnone' hnone⟩
            rw [hput]
            exact ⟨free, lru, chain, hshape, hcap⟩
        · exact absurd hnone' hnone

/-- **A spoiled put** loses the victim's slot. -/
theorem Accounted.put_spoiled (hlaw : cfg.hashEqPolicy.Lawful) (hcap₀ : 0 < cfg.capacity)
    (hbuckets : 0 < cfg.bucketCount) (hkey : cfg.keyPolicy.Faithful)
    (hval : cfg.valuePolicy.Faithful) (h : Accounted cfg s) {key : K} {value : V} {victim : ℕ}
    (hnone : contains cfg s (some key) = .contains false) (hlist : s.links.freeList = none)
    (htail : s.recency.tail = some victim)
    (hfail : ¬ CopiesOk cfg (destroyEntry cfg s victim) victim key value) :
    ¬ SlotsConserved cfg (LruCache.put cfg s (some key) (some value)).2 := by
  obtain ⟨free, lru, chain, h, hcap⟩ := h
  rw [h.contains_eq_false hlaw hbuckets] at hnone
  rcases h.room hcap₀ hcap with ⟨i, rest, -, hsome⟩ | ⟨init, victim', rfl, rfl, -, htail', hfull⟩
  · rw [hlist] at hsome
    cases hsome
  · obtain rfl : victim = victim' := Option.some.inj (htail.symm.trans htail')
    obtain ⟨st, s', chain', -, hput, hshape, -⟩ :=
      (put_new_full hlaw hbuckets hkey hval h hfull hnone).2 hfail
    rw [hput]
    apply hshape.not_slotsConserved _ (h.bound victim (by simp))
    have hnodup := h.lru_nodup
    rw [← List.concat_eq_append, List.nodup_concat] at hnodup
    exact hnodup.1

/-- **Every unspoiled call** keeps the slots, and is served. -/
theorem Accounted.call (hlaw : cfg.hashEqPolicy.Lawful) (hcap₀ : 0 < cfg.capacity)
    (hbuckets : 0 < cfg.bucketCount) (hkey : cfg.keyPolicy.Faithful)
    (hval : cfg.valuePolicy.Faithful) (h : Accounted cfg s) (hgood : Unspoiled cfg s c) :
    Accounted cfg (call cfg s c).2 ∧ PutServed cfg s c := by
  have h' := h
  obtain ⟨free, lru, chain, h, hcap⟩ := h
  cases c with
  | put key value => exact h'.put hlaw hcap₀ hbuckets hkey hval hgood
  | get key out =>
    exact ⟨Accounted.of_perm hcap (h.consulted hlaw hbuckets (get_consulted cfg s key out)), nofun⟩
  | peek key out =>
    exact ⟨Accounted.of_perm hcap (h.consulted hlaw hbuckets (peek_consulted cfg s key out)), nofun⟩
  | touch key =>
    exact ⟨Accounted.of_perm hcap (h.consulted hlaw hbuckets (touch_consulted cfg s key)), nofun⟩
  | contains key => exact ⟨h', nofun⟩
  | clear =>
    obtain ⟨s', free', chain', hclear, hshape, hlen⟩ := clear_spec hbuckets h
    refine ⟨?_, nofun⟩
    rw [LruCache.call, hclear]
    exact ⟨free', [], chain', hshape, by simpa using hlen.trans hcap⟩
  | remove key =>
    refine ⟨?_, nofun⟩
    cases key with
    | none => exact h'
    | some key =>
      rcases h.find hlaw hbuckets key with ⟨i, hi, -, hbucket, as, bs, hchain, hfind⟩ | ⟨-, last, hfind⟩
      · obtain ⟨s', chain', hremove, hshape, -⟩ := remove_stored hbuckets h hi hbucket hchain hfind
        rw [LruCache.call, hremove]
        have hlen := (List.perm_cons_erase hi).length_eq
        rw [List.length_cons] at hlen
        exact ⟨_, _, chain', hshape, by rw [List.length_cons]; omega⟩
      · simp only [LruCache.call, remove, hfind]
        exact h'

/-- A call conserves the slots of an accounted cache exactly if it is unspoiled. -/
theorem Accounted.conserves_iff (hlaw : cfg.hashEqPolicy.Lawful) (hcap₀ : 0 < cfg.capacity)
    (hbuckets : 0 < cfg.bucketCount) (hkey : cfg.keyPolicy.Faithful)
    (hval : cfg.valuePolicy.Faithful) (h : Accounted cfg s) :
    Conserves cfg s c ↔ Unspoiled cfg s c := by
  constructor
  · rintro ⟨hconserved, -⟩
    match c with
    | .put (some key) (some value) =>
      intro hnone hlist victim htail
      by_contra hfail
      exact h.put_spoiled hlaw hcap₀ hbuckets hkey hval hnone hlist htail hfail hconserved
    | .put none _ => trivial
    | .put (some _) none => trivial
    | .get _ _ => trivial
    | .peek _ _ => trivial
    | .touch _ => trivial
    | .remove _ => trivial
    | .contains _ => trivial
    | .clear => trivial
  · intro hgood
    obtain ⟨hnext, hserved⟩ := h.call hlaw hcap₀ hbuckets hkey hval hgood
    exact ⟨hnext.slotsConserved hbuckets, hserved⟩

/-! ## Whole runs -/

/-- **Slots are conserved exactly in unspoiled runs.** For every positive capacity and bucket count,
every hash with a compatible key equality and every outcome of the copies: on a freshly initialised
cache, every call of a run conserves the slots, and serves a put of a new key whose copies succeed,
exactly if every call is unspoiled. -/
theorem slots_conserved_iff_unspoiled (hlaw : cfg.hashEqPolicy.Lawful) (hcap : 0 < cfg.capacity)
    (hbuckets : 0 < cfg.bucketCount) (hkey : cfg.keyPolicy.Faithful)
    (hval : cfg.valuePolicy.Faithful) (memory : LruCache K V) (calls : List (Call K V)) :
    ∃ s₀, init cfg true memory = .ok s₀ ∧
      (Mealy.EveryCall (call cfg) (Conserves cfg) s₀ calls ↔
        Mealy.EveryCall (call cfg) (Unspoiled cfg) s₀ calls) := by
  obtain ⟨s₀, free, hinit, hshape, hfree⟩ := init_spec hcap hbuckets memory
  have hinv : Accounted cfg s₀ := ⟨free, [], _, hshape, by simpa using hfree⟩
  refine ⟨s₀, hinit, Mealy.everyCall_congr (Accounted cfg) ?_ ?_ hinv (Mealy.everyCall_true s₀ calls)⟩
  · intro s c h _
    exact h.conserves_iff hlaw hcap hbuckets hkey hval
  · intro s c h _ hgood
    exact (h.call hlaw hcap hbuckets hkey hval
      ((h.conserves_iff hlaw hcap hbuckets hkey hval).mp hgood)).1

/-- A cache of one entry whose third copy of a value fails. -/
def failingConfig : LruConfig 64 ℕ ℕ where
  keyPolicy := .bytewise ℕ
  valuePolicy := ⟨fun n _ src => if n = 3 then (.oom, 0) else (.ok, src), id⟩
  hashEqPolicy := .ofDecEq (BitVec.ofNat 64)
  capacity := 1
  bucketCount := 1

theorem faithful_failingConfig : failingConfig.valuePolicy.Faithful := by
  intro n dst src hok
  by_cases hn : n = 3
  · simp [failingConfig, hn] at hok
  · simp [failingConfig, hn]

/-- Removing the entry first keeps its slot from being lost. -/
theorem slots_conserved_iff_unspoiled_one :
    ∃ s₀, init failingConfig true blank = .ok s₀ ∧
      Mealy.EveryCall (call failingConfig) (Conserves failingConfig) s₀
        [.put (some 1) (some 10), .remove (some 1), .put (some 2) (some 20),
          .put (some 2) (some 20)] := by
  obtain ⟨s₀, hinit, hiff⟩ := slots_conserved_iff_unspoiled (HashPolicy.lawful_ofDecEq _)
    (show 0 < failingConfig.capacity by decide) (by decide)
    (ElementPolicy.nonFailing_bytewise ℕ).faithful faithful_failingConfig blank
    [.put (some 1) (some 10), .remove (some 1), .put (some 2) (some 20), .put (some 2) (some 20)]
  refine ⟨s₀, hinit, hiff.mpr ?_⟩
  obtain rfl : resetFreeList failingConfig blank = s₀ := Except.ok.inj hinit
  decide

/-- A failed copy into the slot of the victim loses the only slot: the cache is empty, and a put
whose copies succeed returns full. -/
theorem failed_eviction_loses_slot :
    ¬ Mealy.EveryCall (call failingConfig) (Conserves failingConfig)
      (resetFreeList failingConfig blank)
      [.put (some 1) (some 10), .put (some 2) (some 20), .put (some 3) (some 30)] ∧
    Mealy.outputs (call failingConfig) (resetFreeList failingConfig blank)
      [.put (some 1) (some 10), .put (some 2) (some 20), .put (some 3) (some 30)] =
      [.put .ok, .put .oom, .put .full] := by
  constructor
  · rintro ⟨-, -, ⟨-, hserved⟩, -⟩
    refine hserved 3 30 rfl (by decide) ⟨fun _ => rfl, fun _ => ?_⟩ (by decide)
    rfl
  · decide

end LruCache

end Memkit
