import Memkit.Caching.LruCacheLinks

/-! # The shape of the LRU cache

`Shape` adds the keys to the links: every live entry is on the chain of its own key's bucket, and
live keys differ. So `find_entry` finds what is live, and the building blocks of the operations
(promote, acquire, release, detach, attach) keep a shape if keys go where they belong. -/

namespace Memkit

open LinkedChain

namespace LruCache

variable {w : ℕ} {K V : Type*}

/-- The lists that the links of the cache spell out, and what they say about the entries. -/
structure Shape (cfg : LruConfig w K V) (s : LruCache K V) (free lru : List ℕ)
    (chain : ℕ → List ℕ) : Prop where
  recency : s.recency.Walks lru
  links : s.links.Walks cfg.bucketCount free chain
  chain_mem : ∀ b < cfg.bucketCount, ∀ i,
    i ∈ chain b ↔ i ∈ lru ∧ bucketOf cfg (s.keys i) = b
  nodup : (free ++ lru).Nodup
  bound : ∀ i ∈ free ++ lru, i < cfg.capacity
  size : s.size = lru.length
  distinct : lru.Pairwise fun i j => cfg.hashEqPolicy.equal (s.keys i) (s.keys j) = false

variable {cfg : LruConfig w K V} {s s' : LruCache K V} {free lru as bs : List ℕ}
  {chain : ℕ → List ℕ} {i : ℕ} {key : K}

namespace Shape

/-- A live entry is on the chain of its key's bucket. -/
theorem mem_chain (h : Shape cfg s free lru chain) (hpos : 0 < cfg.bucketCount) (hi : i ∈ lru) :
    i ∈ chain (bucketOf cfg (s.keys i)) :=
  (h.chain_mem _ (Nat.mod_lt _ hpos) i).mpr ⟨hi, rfl⟩

/-- An entry that is not live is on no chain. -/
theorem notMem_chain (h : Shape cfg s free lru chain) (hi : i ∉ lru) :
    ∀ b < cfg.bucketCount, i ∉ chain b :=
  fun b hb hmem => hi ((h.chain_mem b hb i).mp hmem).1

theorem lru_nodup (h : Shape cfg s free lru chain) : lru.Nodup := (List.nodup_append.mp h.nodup).2.1

/-- A shape without its keys. -/
theorem threaded (h : Shape cfg s free lru chain) (hpos : 0 < cfg.bucketCount) :
    Threaded cfg s free lru chain :=
  ⟨h.recency, h.links, fun b hb i hi => ((h.chain_mem b hb i).mp hi).1,
    fun i hi => ⟨bucketOf cfg (s.keys i), bucketOf_lt hpos _, h.mem_chain hpos hi⟩, h.nodup, h.bound,
    h.size⟩

/-- Two live entries with equal keys are one entry. -/
theorem eq_of_equal (hlaw : cfg.hashEqPolicy.Lawful) (h : Shape cfg s free lru chain) {j : ℕ}
    (hi : i ∈ lru) (hj : j ∈ lru) (hequal : cfg.hashEqPolicy.equal (s.keys i) (s.keys j) = true) :
    i = j := by
  by_contra hne
  have : Std.Symm fun i j => cfg.hashEqPolicy.equal (s.keys i) (s.keys j) = false := by
    constructor
    intro a b hab
    rw [hlaw.comm]
    exact hab
  have hdiff := h.distinct.forall hi hj hne
  rw [hdiff] at hequal
  cases hequal

/-- A list of distinct pool entries is no longer than the pool. -/
theorem length_le (h : Shape cfg s free lru chain) {xs : List ℕ} (hnodup : xs.Nodup)
    (hsub : ∀ i ∈ xs, i ∈ free ++ lru) : xs.length ≤ cfg.capacity := by
  have hrange : xs ⊆ List.range cfg.capacity := fun i hi => List.mem_range.mpr (h.bound i (hsub i hi))
  simpa using (hnodup.subperm hrange).length_le

/-- **`find_entry`** returns; it finds the live entry with an equal key, and where it is on its
chain, or reports that there is none. -/
theorem find (hlaw : cfg.hashEqPolicy.Lawful) (hpos : 0 < cfg.bucketCount)
    (h : Shape cfg s free lru chain) (key : K) :
    (∃ i ∈ lru, cfg.hashEqPolicy.equal (s.keys i) key = true ∧
      bucketOf cfg (s.keys i) = bucketOf cfg key ∧
      ∃ as bs, chain (bucketOf cfg key) = as ++ i :: bs ∧
        findEntry cfg s key = some ⟨some i, as.getLast?⟩) ∨
    ((∀ i ∈ lru, cfg.hashEqPolicy.equal (s.keys i) key = false) ∧
      ∃ last, findEntry cfg s key = some ⟨none, last⟩) := by
  have hb := bucketOf_lt hpos key
  rcases (h.threaded hpos).find hpos key with ⟨i, hi, hequal, as, bs, hchain, hfind⟩ | ⟨hnone, hfind⟩
  · have hmem : i ∈ chain (bucketOf cfg key) := by simp [hchain]
    exact .inl ⟨i, hi, hequal, ((h.chain_mem _ hb i).mp hmem).2, as, bs, hchain, hfind⟩
  · refine .inr ⟨?_, hfind⟩
    intro i hi
    by_contra hequal
    have hequal : cfg.hashEqPolicy.equal (s.keys i) key = true := by simpa using hequal
    have hmem := h.mem_chain hpos hi
    have hbucket : bucketOf cfg (s.keys i) = bucketOf cfg key := by
      rw [bucketOf, bucketOf, hlaw.hash_eq _ _ hequal]
    rw [hbucket] at hmem
    rw [hnone i hmem] at hequal
    cases hequal

/-- A new key is not found. -/
theorem find_absent (hlaw : cfg.hashEqPolicy.Lawful) (hpos : 0 < cfg.bucketCount)
    (h : Shape cfg s free lru chain) (hnew : ∀ j ∈ lru, cfg.hashEqPolicy.equal (s.keys j) key = false) :
    ∃ last, findEntry cfg s key = some ⟨none, last⟩ := by
  rcases h.find hlaw hpos key with ⟨j, hj, hequal, -⟩ | ⟨-, hfind⟩
  · rw [hnew j hj] at hequal
    cases hequal
  · exact hfind

/-! ## Building blocks -/

/-- The shape only depends on the links, the size and the keys of live entries. -/
theorem congr (h : Shape cfg s free lru chain) (hrecency : s'.recency = s.recency)
    (hlinks : s'.links = s.links) (hsize : s'.size = s.size)
    (hkeys : ∀ i ∈ lru, s'.keys i = s.keys i) : Shape cfg s' free lru chain := by
  refine ⟨hrecency ▸ h.recency, hlinks ▸ h.links, ?_, h.nodup, h.bound, hsize ▸ h.size, ?_⟩
  · intro b hb i
    rw [h.chain_mem b hb i]
    constructor
    · rintro ⟨hi, hbucket⟩
      exact ⟨hi, hkeys i hi ▸ hbucket⟩
    · rintro ⟨hi, hbucket⟩
      exact ⟨hi, hkeys i hi ▸ hbucket⟩
  · apply h.distinct.imp_of_mem
    intro i j hi hj hne
    rw [hkeys i hi, hkeys j hj]
    exact hne

/-- Promoting a live entry. -/
theorem promote (hlaw : cfg.hashEqPolicy.Lawful) (h : Shape cfg s free lru chain) (hi : i ∈ lru) :
    Shape cfg (s.promote i) free (i :: lru.erase i) chain := by
  have hperm : lru.Perm (i :: lru.erase i) := List.perm_cons_erase hi
  have hall : (free ++ lru).Perm (free ++ i :: lru.erase i) := hperm.append_left free
  refine ⟨h.recency.promote h.lru_nodup hi, h.links, ?_, hall.nodup_iff.mp h.nodup, ?_, ?_, ?_⟩
  · intro b hb j
    rw [h.chain_mem b hb j, hperm.mem_iff]
    exact Iff.rfl
  · intro j hj
    exact h.bound j (hall.mem_iff.mpr hj)
  · exact h.size.trans hperm.length_eq
  · refine (hperm.pairwise_iff ?_).mp h.distinct
    intro a b hab
    rw [hlaw.comm]
    exact hab

/-- Acquiring the first free entry. -/
theorem acquire (h : Shape cfg s (i :: free) lru chain) :
    s.links.acquire.1 = some i ∧
      Shape cfg { s with links := s.links.acquire.2 } free lru chain ∧ i ∉ free ++ lru ∧
      i < cfg.capacity := by
  obtain ⟨hentry, hlinks⟩ := h.links.acquire
  obtain ⟨hi, hnodup⟩ := List.nodup_cons.mp h.nodup
  exact ⟨hentry, ⟨h.recency, hlinks, h.chain_mem, hnodup,
    fun j hj => h.bound j (List.mem_cons_of_mem i hj), h.size, h.distinct⟩, hi,
    h.bound i List.mem_cons_self⟩

/-- Releasing an entry that is on no list. -/
theorem release (h : Shape cfg s free lru chain) (hi : i ∉ free ++ lru) (hcap : i < cfg.capacity) :
    Shape cfg (releaseEntry s i) (i :: free) lru chain := by
  have hfree : i ∉ free := fun hmem => hi (List.mem_append_left lru hmem)
  have hlive : i ∉ lru := fun hmem => hi (List.mem_append_right free hmem)
  refine ⟨h.recency.forget hlive, h.links.release hfree (h.notMem_chain hlive), h.chain_mem,
    List.nodup_cons.mpr ⟨hi, h.nodup⟩, ?_, h.size, h.distinct⟩
  intro j hj
  rcases List.mem_cons.mp hj with rfl | hj
  · exact hcap
  · exact h.bound j hj

/-- Taking a live entry off the recency list and off its chain. -/
theorem detach (hpos : 0 < cfg.bucketCount) (h : Shape cfg s free lru chain)
    (hchain : chain (bucketOf cfg (s.keys i)) = as ++ i :: bs) :
    Shape cfg
      { s with
        recency := s.recency.lruUnlink i
        links := s.links.hashUnlink (bucketOf cfg (s.keys i)) i as.getLast?
        size := s.size - 1 }
      free (lru.erase i) (Function.update chain (bucketOf cfg (s.keys i)) (as ++ bs)) := by
  have hb := bucketOf_lt hpos (s.keys i)
  have hthreaded := h.threaded hpos
  have hdetached := hthreaded.detach hb hchain
  refine ⟨hdetached.recency, hdetached.links, ?_, hdetached.nodup, hdetached.bound, hdetached.size,
    h.distinct.sublist List.erase_sublist⟩
  intro b hb' j
  rw [hthreaded.mem_detached hb hchain hb' j, h.chain_mem b hb' j, h.lru_nodup.mem_erase_iff]
  constructor
  · rintro ⟨⟨hj, hbucket⟩, hne⟩
    exact ⟨⟨hne, hj⟩, hbucket⟩
  · rintro ⟨⟨hne, hj⟩, hbucket⟩
    exact ⟨⟨hj, hbucket⟩, hne⟩

/-- Linking an entry with a new key in front of its chain and of the recency list. -/
theorem attach (hlaw : cfg.hashEqPolicy.Lawful) (hpos : 0 < cfg.bucketCount)
    (h : Shape cfg s free lru chain) (hi : i ∉ free ++ lru) (hcap : i < cfg.capacity)
    (hnew : ∀ j ∈ lru, cfg.hashEqPolicy.equal (s.keys j) (s.keys i) = false) :
    Shape cfg
      { s with
        links := s.links.hashLink (bucketOf cfg (s.keys i)) i
        recency := s.recency.lruPushFront i
        size := s.size + 1 }
      free (i :: lru)
      (Function.update chain (bucketOf cfg (s.keys i)) (i :: chain (bucketOf cfg (s.keys i)))) := by
  have hb := bucketOf_lt hpos (s.keys i)
  have hattached := (h.threaded hpos).attach hb hi hcap
  refine ⟨hattached.recency, hattached.links, ?_, hattached.nodup, hattached.bound, hattached.size,
    List.pairwise_cons.mpr ⟨?_, h.distinct⟩⟩
  · intro b hb' j
    rw [Threaded.mem_attached j, h.chain_mem b hb' j, List.mem_cons]
    constructor
    · rintro (⟨rfl, rfl⟩ | ⟨hj, hbucket⟩)
      · exact ⟨.inl rfl, rfl⟩
      · exact ⟨.inr hj, hbucket⟩
    · rintro ⟨rfl | hj, hbucket⟩
      · exact .inl ⟨rfl, hbucket.symm⟩
      · exact .inr ⟨hj, hbucket⟩
  · intro j hj
    rw [hlaw.comm]
    exact hnew j hj

end Shape

end LruCache

end Memkit
