import Memkit.Caching.LruCache
import Memkit.Hashing.Chaining
import Memkit.Hashing.OpenAddressingMap

/-! # The divisors of the hashed containers

A key is reduced modulo the bucket count, which is zero in a container that was never initialised,
whose initialisation failed, or that was released or moved away. For each public operation of
`hashmap_map_core`, in both layouts, and of `lrucache_map_core`, `divisors` lists the divisors of the
remainders that it computes, in order; it follows the operation through its branches and loops. An
operation divides by zero if zero is one of them. -/

namespace Memkit

variable {w : ℕ} {K V : Type*}

/-- A bucket count that grows is not zero. -/
theorem growBucketCount_ne_zero {current : BitVec w} (hcurrent : current ≠ 0)
    (hgrows : growBucketCount current ≠ current) : 0 ≠ (growBucketCount current).toNat := by
  have hpos : 0 < current.toNat := by
    rw [Nat.pos_iff_ne_zero]
    exact fun hzero => hcurrent (BitVec.eq_of_toNat_eq (by simpa using hzero))
  rw [OpenMap.toNat_growBucketCount hpos hgrows]
  omega

/-! ## The chaining layout -/

namespace ChainMap

variable {cfg : ChainConfig w K V} {s : ChainMap w K V}

/-- `reset_state`, which also is what a default constructor leaves. -/
def resetState (s : ChainMap w K V) : ChainMap w K V :=
  { s with buckets := fun _ => none, bucketCount := 0, size := 0 }

/-- The divisors of the loop of `chain_rehash` over one chain. -/
def rehashChainDivisors (cfg : ChainConfig w K V) (s : ChainMap w K V) (newCount : BitVec w) :
    ℕ → (ℕ → Option ℕ) → (ℕ → Option ℕ) → Option ℕ → List ℕ
  | _, _, _, none => []
  | 0, _, _, some _ => []
  | rounds + 1, newBuckets, next, some node =>
    let index := bucketIndex cfg newCount (s.keys.contents node)
    newCount.toNat ::
      rehashChainDivisors cfg s newCount rounds (Function.update newBuckets index (some node))
        (Function.update next node (newBuckets index)) (next node)

/-- The divisors of the loop of `chain_rehash` over the remaining buckets. -/
def rehashBucketsDivisors (cfg : ChainConfig w K V) (s : ChainMap w K V) (newCount : BitVec w) :
    List ℕ → (ℕ → Option ℕ) → (ℕ → Option ℕ) → List ℕ
  | [], _, _ => []
  | i :: is, newBuckets, next =>
    rehashChainDivisors cfg s newCount s.rounds newBuckets next (s.buckets i) ++
      match rehashChain cfg s newCount s.rounds newBuckets next (s.buckets i) with
      | none => []
      | some (newBuckets, next) => rehashBucketsDivisors cfg s newCount is newBuckets next

/-- The divisors of `chain_rehash`. -/
def chainRehashDivisors (cfg : ChainConfig w K V) (s : ChainMap w K V) (newCount : BitVec w) :
    List ℕ :=
  if cfg.allocRaw s.allocs (newCount * cfg.pointerSize) ≠ .ok then []
  else
    rehashBucketsDivisors cfg { s with allocs := s.allocs + 1 } newCount
      (List.range s.bucketCount.toNat) (fun _ => none) s.next

/-- The divisors of `maybe_grow`. -/
def maybeGrowDivisors (cfg : ChainConfig w K V) (s : ChainMap w K V) : List ℕ :=
  let newCount := growBucketCount s.bucketCount
  if newCount = s.bucketCount then [] else chainRehashDivisors cfg s newCount

/-- The divisors of `put`; `chain_put` reduces the key once. -/
def putDivisors (cfg : ChainConfig w K V) (s : ChainMap w K V) (key : Option K)
    (value : Option V) : List ℕ :=
  match key, value with
  | some _, some _ =>
    if s.bucketCount = 0 then []
    else if shouldGrow cfg.growable s.bucketCount (BitVec.ofNat w s.size) then
      maybeGrowDivisors cfg s ++
        match maybeGrow cfg s with
        | none => []
        | some (growSt, s) => if growSt ≠ .ok then [] else [s.bucketCount.toNat]
    else [s.bucketCount.toNat]
  | _, _ => []

/-- The divisors of a call. `chain_get`, `chain_remove` and `chain_contains` reduce the key once. -/
def divisors (cfg : ChainConfig w K V) (s : ChainMap w K V) : Call K V → List ℕ
  | .put key value => putDivisors cfg s key value
  | .get (some _) (some _) => [s.bucketCount.toNat]
  | .get _ _ => []
  | .remove (some _) => [s.bucketCount.toNat]
  | .remove none => []
  | .contains (some _) => [s.bucketCount.toNat]
  | .contains none => []
  | .clear => []
  | .foreach _ => []

/-- The call looks for a key without a test of the bucket count. -/
def Call.Searches : Call K V → Prop
  | .get (some _) (some _) => True
  | .remove (some _) => True
  | .contains (some _) => True
  | _ => False

/-- Every remainder of a rehash is modulo the new bucket count. -/
theorem eq_of_mem_rehashChainDivisors {newCount : BitVec w} {rounds : ℕ}
    {newBuckets next : ℕ → Option ℕ} {node : Option ℕ} {d : ℕ}
    (hd : d ∈ rehashChainDivisors cfg s newCount rounds newBuckets next node) :
    d = newCount.toNat := by
  induction rounds generalizing newBuckets next node with
  | zero =>
    cases node with
    | none => cases hd
    | some node => cases hd
  | succ rounds ih =>
    cases node with
    | none => cases hd
    | some node =>
      rcases List.mem_cons.mp hd with rfl | hd
      · rfl
      · exact ih hd

theorem eq_of_mem_rehashBucketsDivisors {newCount : BitVec w} {is : List ℕ}
    {newBuckets next : ℕ → Option ℕ} {d : ℕ}
    (hd : d ∈ rehashBucketsDivisors cfg s newCount is newBuckets next) : d = newCount.toNat := by
  induction is generalizing newBuckets next with
  | nil => cases hd
  | cons i is ih =>
    rcases List.mem_append.mp hd with hd | hd
    · exact eq_of_mem_rehashChainDivisors hd
    · cases hrehash : rehashChain cfg s newCount s.rounds newBuckets next (s.buckets i) with
      | none =>
        rw [hrehash] at hd
        cases hd
      | some r =>
        rw [hrehash] at hd
        exact ih hd

/-- Growth never divides by zero. -/
theorem zero_notMem_maybeGrowDivisors (hcount : s.bucketCount ≠ 0) :
    0 ∉ maybeGrowDivisors cfg s := by
  unfold maybeGrowDivisors chainRehashDivisors
  dsimp only
  intro hmem
  split at hmem
  · cases hmem
  · rename_i hgrows
    split at hmem
    · cases hmem
    · exact growBucketCount_ne_zero hcount hgrows (eq_of_mem_rehashBucketsDivisors hmem)

/-- Growth leaves a bucket count that is not zero. -/
theorem bucketCount_maybeGrow (hcount : s.bucketCount ≠ 0) {t : ChainMap w K V}
    (hgrow : maybeGrow cfg s = some (.ok, t)) : t.bucketCount.toNat ≠ 0 := by
  unfold maybeGrow at hgrow
  dsimp only at hgrow
  split at hgrow
  · cases hgrow
  · rename_i hgrows
    unfold chainRehash at hgrow
    dsimp only at hgrow
    split at hgrow
    · rename_i hst
      exact absurd (Prod.mk.inj (Option.some.inj hgrow)).1 hst
    · obtain ⟨⟨newBuckets, next⟩, -, ht⟩ := Option.map_eq_some_iff.mp hgrow
      obtain rfl := (Prod.mk.inj ht).2
      exact fun h => growBucketCount_ne_zero hcount hgrows h.symm

/-- **A call divides by zero** exactly when it searches a map without buckets. -/
theorem zero_mem_divisors_iff (c : Call K V) :
    0 ∈ divisors cfg s c ↔ s.bucketCount = 0 ∧ c.Searches := by
  have hzero : 0 = s.bucketCount.toNat ↔ s.bucketCount = 0 := by
    constructor
    · intro h
      exact BitVec.eq_of_toNat_eq (by simpa using h.symm)
    · intro h
      rw [h]
      rfl
  cases c with
  | put key value =>
    -- `put` tests the bucket count before the first search
    refine iff_of_false ?_ fun h => h.2
    show 0 ∉ putDivisors cfg s key value
    unfold putDivisors
    split
    · by_cases hcount : s.bucketCount = 0
      · rw [if_pos hcount]
        exact List.not_mem_nil
      · rw [if_neg hcount]
        have hone : 0 ∉ [s.bucketCount.toNat] := by
          rw [List.mem_singleton, hzero]
          exact hcount
        split
        · rw [List.mem_append, not_or]
          -- after a growth the second search divides by the new count, which is no zero either
          refine ⟨zero_notMem_maybeGrowDivisors hcount, ?_⟩
          cases hgrow : maybeGrow cfg s with
          | none => exact List.not_mem_nil
          | some r =>
            obtain ⟨growSt, t⟩ := r
            by_cases hst : growSt = .ok
            · subst hst
              have ht := bucketCount_maybeGrow hcount hgrow
              simpa using ht.symm
            · simp [hst]
        · exact hone
    · exact List.not_mem_nil
  | get key out =>
    cases key with
    | none => simp [divisors, Call.Searches]
    | some key =>
      cases out with
      | none => simp [divisors, Call.Searches]
      | some out => simp only [divisors, List.mem_singleton, hzero, Call.Searches, and_true]
  | remove key =>
    cases key with
    | none => simp [divisors, Call.Searches]
    | some key => simp only [divisors, List.mem_singleton, hzero, Call.Searches, and_true]
  | contains key =>
    cases key with
    | none => simp [divisors, Call.Searches]
    | some key => simp only [divisors, List.mem_singleton, hzero, Call.Searches, and_true]
  | clear => simp [divisors, Call.Searches]
  | foreach visit => simp [divisors, Call.Searches]

end ChainMap

/-! ## The open-addressing layout -/

namespace OpenMap

variable {cfg : HashMapConfig w K V} {s : OpenMap w K V}

/-- `release_storage`: the slots are given up, the counter and the strategy are not. -/
def releaseStorage (s : OpenMap w K V) : OpenMap w K V := { s with bucketCount := 0 }

/-- The divisors of the loop of `open_probe`: one for each step to the next slot. -/
def probeLoopDivisors (equal : K → K → Bool) (slots : ℕ → Slot K V) (bucketCount : ℕ) (key : K) :
    ℕ → ℕ → List ℕ
  | 0, _ => []
  | probes + 1, index =>
    match (slots index).state with
    | .empty => []
    | .deleted =>
      bucketCount ::
        probeLoopDivisors equal slots bucketCount key probes ((index + 1) % bucketCount)
    | .occupied =>
      if equal (slots index).key key then []
      else
        bucketCount ::
          probeLoopDivisors equal slots bucketCount key probes ((index + 1) % bucketCount)

/-- The divisors of `open_probe`, which are all that `open_put`, `open_get`, `open_remove` and
`open_contains` compute with. -/
def openProbeDivisors (cfg : HashMapConfig w K V) (s : OpenMap w K V) (key : K) : List ℕ :=
  s.buckets ::
    probeLoopDivisors cfg.hashPolicy.equal s.slots s.buckets key s.buckets (home cfg s.buckets key)

/-- The divisors of the loop of `open_rehash` over the remaining old slots. -/
def rehashLoopDivisors (cfg : HashMapConfig w K V) (oldSlots : ℕ → Slot K V) :
    List ℕ → OpenMap w K V → List ℕ
  | [], _ => []
  | i :: is, s =>
    if (oldSlots i).state ≠ .occupied then rehashLoopDivisors cfg oldSlots is s
    else
      openProbeDivisors cfg s (oldSlots i).key ++
        let (st, s) := openPut cfg s (oldSlots i).key (oldSlots i).value
        if st ≠ .ok then [] else rehashLoopDivisors cfg oldSlots is s

/-- The divisors of `open_rehash`. -/
def openRehashDivisors (cfg : HashMapConfig w K V) (s : OpenMap w K V) (newCount : BitVec w) :
    List ℕ :=
  let allocSt := cfg.allocRaw s.allocs (newCount * cfg.slotStride)
  let s := { s with allocs := s.allocs + 1 }
  if allocSt ≠ .ok then []
  else rehashLoopDivisors cfg s.slots (List.range s.buckets) (freshSlots cfg s newCount)

/-- The divisors of `maybe_grow`. -/
def maybeGrowDivisors (cfg : HashMapConfig w K V) (s : OpenMap w K V) : List ℕ :=
  let newCount := growBucketCount s.bucketCount
  if newCount = s.bucketCount then [] else openRehashDivisors cfg s newCount

/-- The divisors of `put`. -/
def putDivisors (cfg : HashMapConfig w K V) (s : OpenMap w K V) (key : Option K)
    (value : Option V) : List ℕ :=
  match key, value with
  | some key, some _ =>
    if s.bucketCount = 0 then []
    else if shouldGrow cfg.growable s.bucketCount s.size then
      maybeGrowDivisors cfg s ++
        let (growSt, s) := maybeGrow cfg s
        if growSt ≠ .ok then [] else openProbeDivisors cfg s key
    else openProbeDivisors cfg s key
  | _, _ => []

/-- The divisors of a call. -/
def divisors (cfg : HashMapConfig w K V) (s : OpenMap w K V) : Call K V → List ℕ
  | .put key value => putDivisors cfg s key value
  | .get (some key) (some _) => openProbeDivisors cfg s key
  | .get _ _ => []
  | .remove (some key) => openProbeDivisors cfg s key
  | .remove none => []
  | .contains (some key) => openProbeDivisors cfg s key
  | .contains none => []
  | .clear => []

/-- The call looks for a key without a test of the bucket count. -/
def Call.Searches : Call K V → Prop
  | .get (some _) (some _) => True
  | .remove (some _) => True
  | .contains (some _) => True
  | _ => False

/-- Every remainder of a probe is modulo the bucket count. -/
theorem eq_of_mem_probeLoopDivisors {equal : K → K → Bool} {slots : ℕ → Slot K V}
    {bucketCount probes index : ℕ} {key : K} {d : ℕ}
    (hd : d ∈ probeLoopDivisors equal slots bucketCount key probes index) : d = bucketCount := by
  induction probes generalizing index with
  | zero => cases hd
  | succ probes ih =>
    unfold probeLoopDivisors at hd
    split at hd
    · cases hd
    · rcases List.mem_cons.mp hd with rfl | hd
      · rfl
      · exact ih hd
    · split at hd
      · cases hd
      · rcases List.mem_cons.mp hd with rfl | hd
        · rfl
        · exact ih hd

theorem mem_openProbeDivisors {key : K} {d : ℕ} :
    d ∈ openProbeDivisors cfg s key ↔ d = s.buckets := by
  constructor
  · intro hd
    rcases List.mem_cons.mp hd with rfl | hd
    · rfl
    · exact eq_of_mem_probeLoopDivisors hd
  · rintro rfl
    exact List.mem_cons_self

/-- `open_put` leaves the bucket count alone. -/
theorem bucketCount_openPut (cfg : HashMapConfig w K V) (s : OpenMap w K V) (key : K) (value : V) :
    (openPut cfg s key value).2.bucketCount = s.bucketCount := by
  unfold openPut
  dsimp only
  split
  · split <;> rfl
  · split
    · rfl
    · split <;> rfl

/-- Every remainder of a rehash is modulo the new bucket count, which it leaves behind. -/
theorem rehashLoop_buckets (cfg : HashMapConfig w K V) (oldSlots : ℕ → Slot K V) (is : List ℕ)
    (s : OpenMap w K V) :
    (rehashLoop cfg oldSlots is s).2.bucketCount = s.bucketCount ∧
      ∀ d ∈ rehashLoopDivisors cfg oldSlots is s, d = s.buckets := by
  induction is generalizing s with
  | nil => exact ⟨rfl, List.forall_mem_nil _⟩
  | cons i is ih =>
    unfold rehashLoop rehashLoopDivisors
    by_cases hstate : (oldSlots i).state ≠ .occupied
    · rw [if_pos hstate, if_pos hstate]
      exact ih s
    · rw [if_neg hstate, if_neg hstate]
      have hput := bucketCount_openPut cfg s (oldSlots i).key (oldSlots i).value
      dsimp only
      generalize openPut cfg s (oldSlots i).key (oldSlots i).value = r at hput ⊢
      obtain ⟨st, t⟩ := r
      have hbuckets : t.buckets = s.buckets := congrArg BitVec.toNat hput
      obtain ⟨hrest, hdivisors⟩ := ih t
      constructor
      · split
        · exact hput
        · exact hrest.trans hput
      · intro d hd
        rcases List.mem_append.mp hd with hd | hd
        · exact mem_openProbeDivisors.mp hd
        · split at hd
          · cases hd
          · exact (hdivisors d hd).trans hbuckets

/-- Growth never divides by zero, and leaves a bucket count that is not zero. -/
theorem maybeGrow_divisors (cfg : HashMapConfig w K V) (hcount : s.bucketCount ≠ 0) :
    0 ∉ maybeGrowDivisors cfg s ∧
      ((maybeGrow cfg s).1 = .ok → (maybeGrow cfg s).2.buckets ≠ 0) := by
  unfold maybeGrowDivisors maybeGrow openRehashDivisors openRehash
  dsimp only
  by_cases hgrows : growBucketCount s.bucketCount = s.bucketCount
  · simp [hgrows]
  rw [if_neg hgrows, if_neg hgrows]
  have hne := growBucketCount_ne_zero hcount hgrows
  split
  · rename_i hst
    exact ⟨List.not_mem_nil, fun h => absurd h hst⟩
  · have hloop := rehashLoop_buckets cfg s.slots (List.range s.buckets)
      (freshSlots cfg { s with allocs := s.allocs + 1 } (growBucketCount s.bucketCount))
    constructor
    · intro hmem
      exact hne (hloop.2 0 hmem)
    · split
      · rename_i hst
        exact fun h => absurd h hst
      · intro _ hzero
        exact hne ((congrArg BitVec.toNat hloop.1).symm.trans hzero).symm

/-- **A call divides by zero** exactly when it searches a map without buckets. -/
theorem zero_mem_divisors_iff (c : Call K V) :
    0 ∈ divisors cfg s c ↔ s.bucketCount = 0 ∧ c.Searches := by
  have hzero : 0 = s.buckets ↔ s.bucketCount = 0 := by
    constructor
    · intro h
      exact BitVec.eq_of_toNat_eq (by simpa [buckets] using h.symm)
    · intro h
      rw [buckets, h]
      rfl
  cases c with
  | put key value =>
    refine iff_of_false ?_ fun h => h.2
    show 0 ∉ putDivisors cfg s key value
    unfold putDivisors
    split
    · by_cases hcount : s.bucketCount = 0
      · rw [if_pos hcount]
        exact List.not_mem_nil
      · rw [if_neg hcount]
        obtain ⟨hgrow, hafter⟩ := maybeGrow_divisors cfg hcount
        split
        · dsimp only
          rw [List.mem_append, not_or]
          refine ⟨hgrow, ?_⟩
          split
          · exact List.not_mem_nil
          · rename_i hst
            rw [mem_openProbeDivisors]
            exact (hafter (not_not.mp hst)).symm
        · rw [mem_openProbeDivisors, hzero]
          exact hcount
    · exact List.not_mem_nil
  | get key out =>
    cases key with
    | none => simp [divisors, Call.Searches]
    | some key =>
      cases out with
      | none => simp [divisors, Call.Searches]
      | some out => simp only [divisors, mem_openProbeDivisors, hzero, Call.Searches, and_true]
  | remove key =>
    cases key with
    | none => simp [divisors, Call.Searches]
    | some key => simp only [divisors, mem_openProbeDivisors, hzero, Call.Searches, and_true]
  | contains key =>
    cases key with
    | none => simp [divisors, Call.Searches]
    | some key => simp only [divisors, mem_openProbeDivisors, hzero, Call.Searches, and_true]
  | clear => simp [divisors, Call.Searches]

end OpenMap

/-! ## The LRU cache -/

namespace LruCache

variable {cfg : LruConfig w K V} {s : LruCache K V}

/-- The counters that `reset_state` and a default constructor leave. -/
def resetCounters (cfg : LruConfig w K V) : LruConfig w K V :=
  { cfg with capacity := 0, bucketCount := 0 }

/-- The divisors of `find_entry`. -/
def findEntryDivisors (cfg : LruConfig w K V) : List ℕ := [cfg.bucketCount]

/-- The divisors of `prepare_entry`: the search for the entry to evict, and the bucket of the new
one. -/
def prepareEntryDivisors (cfg : LruConfig w K V) (s : LruCache K V) (key : K) (value : V) :
    List ℕ :=
  match s.links.acquire with
  | (some slot, links) =>
    let (st, _) := fillEntry cfg { s with links := links } slot true key value
    if st ≠ .ok then [] else [cfg.bucketCount]
  | (none, _) =>
    match s.recency.tail with
    | none => []
    | some slot =>
      if s.size < cfg.capacity then []
      else
        findEntryDivisors cfg ++
          match findEntry cfg s (s.keys slot) with
          | none => []
          | some found =>
            let (st, _) := fillEntry cfg (evict cfg s slot found.prev) slot false key value
            if st ≠ .ok then [] else [cfg.bucketCount]

/-- The divisors of `put`. -/
def putDivisors (cfg : LruConfig w K V) (s : LruCache K V) (key : Option K) (value : Option V) :
    List ℕ :=
  match key, value with
  | some key, some value =>
    findEntryDivisors cfg ++
      match findEntry cfg s key with
      | some ⟨none, _⟩ => prepareEntryDivisors cfg s key value
      | _ => []
  | _, _ => []

/-- The divisors of a call. -/
def divisors (cfg : LruConfig w K V) (s : LruCache K V) : Call K V → List ℕ
  | .get (some _) _ => findEntryDivisors cfg
  | .peek (some _) _ => findEntryDivisors cfg
  | .touch (some _) => findEntryDivisors cfg
  | .put key value => putDivisors cfg s key value
  | .remove (some _) => findEntryDivisors cfg
  | .contains (some _) => findEntryDivisors cfg
  | _ => []

/-- The call looks for a key. -/
def Call.Searches : Call K V → Prop
  | .get (some _) _ => True
  | .peek (some _) _ => True
  | .touch (some _) => True
  | .put (some _) (some _) => True
  | .remove (some _) => True
  | .contains (some _) => True
  | _ => False

/-- Every remainder is modulo the bucket count. -/
theorem eq_of_mem_putDivisors {key : Option K} {value : Option V} {d : ℕ}
    (hd : d ∈ putDivisors cfg s key value) : d = cfg.bucketCount := by
  have hone : d ∈ [cfg.bucketCount] → d = cfg.bucketCount := List.mem_singleton.mp
  have hguard : ∀ {st : Status}, d ∈ (if st ≠ .ok then [] else [cfg.bucketCount]) →
      d = cfg.bucketCount := by
    intro st hmem
    split at hmem
    · cases hmem
    · exact hone hmem
  unfold putDivisors at hd
  split at hd
  · rcases List.mem_append.mp hd with hd | hd
    · exact hone hd
    · split at hd
      · unfold prepareEntryDivisors at hd
        split at hd
        · exact hguard hd
        · split at hd
          · cases hd
          · split at hd
            · cases hd
            · rcases List.mem_append.mp hd with hd | hd
              · exact hone hd
              · split at hd
                · cases hd
                · exact hguard hd
      · cases hd
  · cases hd

/-- **A call divides by zero** exactly when it searches a cache without buckets. -/
theorem zero_mem_divisors_iff (c : Call K V) :
    0 ∈ divisors cfg s c ↔ cfg.bucketCount = 0 ∧ c.Searches := by
  have hfind : 0 ∈ findEntryDivisors cfg ↔ cfg.bucketCount = 0 := by
    rw [findEntryDivisors, List.mem_singleton, eq_comm]
  cases c with
  | put key value =>
    cases key with
    | none => simp [divisors, putDivisors, Call.Searches]
    | some key =>
      cases value with
      | none => simp [divisors, putDivisors, Call.Searches]
      | some value =>
        simp only [Call.Searches, and_true]
        constructor
        · intro hmem
          have hput : 0 ∈ putDivisors cfg s (some key) (some value) := hmem
          exact (eq_of_mem_putDivisors hput).symm
        · intro hzero
          exact List.mem_append_left _ (hfind.mpr hzero)
  | get key out => cases key <;> simp [divisors, Call.Searches, hfind]
  | peek key out => cases key <;> simp [divisors, Call.Searches, hfind]
  | touch key => cases key <;> simp [divisors, Call.Searches, hfind]
  | remove key => cases key <;> simp [divisors, Call.Searches, hfind]
  | contains key => cases key <;> simp [divisors, Call.Searches, hfind]
  | clear => simp [divisors, Call.Searches]

end LruCache

end Memkit
