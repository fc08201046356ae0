import Memkit.Caching.LruCacheStructure

/-! # The links of the LRU cache

`Threaded` puts the recency list and the hash links together without a word about keys: the live
entries are exactly those on the recency list, each on one chain, and no entry is free and live. An
entry may be on none of the lists, and a live one on a chain that its key does not hash to. So the
building blocks of the operations keep it whatever the copies and the hash do. -/

namespace Memkit

open LinkedChain

namespace LruCache

variable {w : ℕ} {K V : Type*}

/-- The lists that the links of the cache spell out. -/
structure Threaded (cfg : LruConfig w K V) (s : LruCache K V) (free lru : List ℕ)
    (chain : ℕ → List ℕ) : Prop where
  recency : s.recency.Walks lru
  links : s.links.Walks cfg.bucketCount free chain
  live : ∀ b < cfg.bucketCount, ∀ i ∈ chain b, i ∈ lru
  chained : ∀ i ∈ lru, ∃ b < cfg.bucketCount, i ∈ chain b
  nodup : (free ++ lru).Nodup
  bound : ∀ i ∈ free ++ lru, i < cfg.capacity
  size : s.size = lru.length

variable {cfg : LruConfig w K V} {s s' : LruCache K V} {free lru as bs : List ℕ}
  {chain : ℕ → List ℕ} {b i : ℕ} {key : K}

/-- The loop of `find_entry` along a chain: it stops at the first match, with the entry before it,
or runs to the end. -/
theorem findLoop_spec (hit : ℕ → Bool) (prev : Option ℕ) {hashNext : ℕ → Option ℕ} {xs : List ℕ}
    {rounds : ℕ} {p : Option ℕ} (hseg : Seg hashNext p xs none) (hlen : xs.length ≤ rounds) :
    (∃ as i bs, xs = as ++ i :: bs ∧ hit i = true ∧
      findLoop hit hashNext rounds prev p = some ⟨some i, as.getLast?.or prev⟩) ∨
    ((∀ i ∈ xs, hit i = false) ∧ ∃ last, findLoop hit hashNext rounds prev p = some ⟨none, last⟩) := by
  induction xs generalizing rounds prev p with
  | nil =>
    obtain rfl : p = none := hseg
    exact .inr ⟨by simp, prev, by simp [findLoop]⟩
  | cons x xs ih =>
    obtain ⟨rfl, hrest⟩ := hseg
    obtain ⟨rounds, rfl⟩ : ∃ r, rounds = r + 1 := ⟨rounds - 1, by simp at hlen; omega⟩
    by_cases hx : hit x = true
    · exact .inl ⟨[], x, xs, rfl, hx, by simp [findLoop, hx]⟩
    · have hx' : hit x = false := by simpa using hx
      have hlen' : xs.length ≤ rounds := by simpa using hlen
      rcases ih (some x) hrest hlen' with ⟨as, i, bs, rfl, hi, hfind⟩ | ⟨hnone, last, hfind⟩
      · refine .inl ⟨x :: as, i, bs, rfl, hi, ?_⟩
        rw [findLoop, hx', List.getLast?_cons]
        simp only [Bool.false_eq_true, if_false, hfind]
        cases as.getLast? <;> rfl
      · refine .inr ⟨?_, last, ?_⟩
        · intro i hi
          rcases List.mem_cons.mp hi with rfl | hi
          · exact hx'
          · exact hnone i hi
        · rw [findLoop, hx']
          simpa using hfind

theorem bucketOf_lt (hpos : 0 < cfg.bucketCount) (key : K) : bucketOf cfg key < cfg.bucketCount :=
  Nat.mod_lt _ hpos

namespace Threaded

theorem lru_nodup (h : Threaded cfg s free lru chain) : lru.Nodup := (List.nodup_append.mp h.nodup).2.1

/-- An entry that is not live is on no chain. -/
theorem notMem_chain (h : Threaded cfg s free lru chain) (hi : i ∉ lru) :
    ∀ b < cfg.bucketCount, i ∉ chain b :=
  fun b hb hmem => hi (h.live b hb i hmem)

/-- A live entry is on one chain only. -/
theorem chain_unique (h : Threaded cfg s free lru chain) {c : ℕ} (hb : b < cfg.bucketCount)
    (hc : c < cfg.bucketCount) (hib : i ∈ chain b) (hic : i ∈ chain c) : b = c := by
  by_contra hbc
  exact h.links.apart b hb c hc hbc i hib hic

/-- A list of distinct pool entries is no longer than the pool. -/
theorem length_le (h : Threaded cfg s free lru chain) {xs : List ℕ} (hnodup : xs.Nodup)
    (hsub : ∀ i ∈ xs, i ∈ free ++ lru) : xs.length ≤ cfg.capacity := by
  have hrange : xs ⊆ List.range cfg.capacity := fun i hi => List.mem_range.mpr (h.bound i (hsub i hi))
  simpa using (hnodup.subperm hrange).length_le

theorem chain_length_le (h : Threaded cfg s free lru chain) (hb : b < cfg.bucketCount) :
    (chain b).length ≤ cfg.capacity :=
  h.length_le (h.links.chain_nodup b hb) fun i hi => List.mem_append_right _ (h.live b hb i hi)

/-- **`find_entry`** returns: the first entry of the bucket's chain with an equal key, and where it
is on the chain, or that there is none. -/
theorem find (hpos : 0 < cfg.bucketCount) (h : Threaded cfg s free lru chain) (key : K) :
    (∃ i ∈ lru, cfg.hashEqPolicy.equal (s.keys i) key = true ∧
      ∃ as bs, chain (bucketOf cfg key) = as ++ i :: bs ∧
        findEntry cfg s key = some ⟨some i, as.getLast?⟩) ∨
    ((∀ i ∈ chain (bucketOf cfg key), cfg.hashEqPolicy.equal (s.keys i) key = false) ∧
      ∃ last, findEntry cfg s key = some ⟨none, last⟩) := by
  have hb := bucketOf_lt hpos key
  rcases findLoop_spec (fun i => cfg.hashEqPolicy.equal (s.keys i) key) none
    (h.links.chains _ hb) (h.chain_length_le hb) with
    ⟨as, i, bs, hchain, hi, hfind⟩ | ⟨hnone, last, hfind⟩
  · have hmem : i ∈ chain (bucketOf cfg key) := by simp [hchain]
    exact .inl ⟨i, h.live _ hb i hmem, hi, as, bs, hchain, by rw [findEntry]; simpa using hfind⟩
  · exact .inr ⟨hnone, last, hfind⟩

/-- An entry found is live. -/
theorem mem_of_find (hpos : 0 < cfg.bucketCount) (h : Threaded cfg s free lru chain)
    {prev : Option ℕ} (hfind : findEntry cfg s key = some ⟨some i, prev⟩) : i ∈ lru := by
  rcases h.find hpos key with ⟨j, hj, -, as, bs, -, hfound⟩ | ⟨-, last, hfound⟩
  · rw [hfound] at hfind
    cases hfind
    exact hj
  · rw [hfound] at hfind
    cases hfind

/-- A full cache has a least recent entry. -/
theorem exists_victim (h : Threaded cfg s free lru chain) (hcap : 0 < cfg.capacity)
    (hfull : cfg.capacity ≤ s.size) : ∃ init victim, lru = init ++ [victim] := by
  have hne : lru ≠ [] := by
    rintro rfl
    rw [h.size, List.length_nil] at hfull
    omega
  exact ⟨_, _, (List.dropLast_append_getLast hne).symm⟩

/-! ## Building blocks -/

/-- The lists only depend on the links and the size. -/
theorem congr (h : Threaded cfg s free lru chain) (hrecency : s'.recency = s.recency)
    (hlinks : s'.links = s.links) (hsize : s'.size = s.size) : Threaded cfg s' free lru chain :=
  ⟨hrecency ▸ h.recency, hlinks ▸ h.links, h.live, h.chained, h.nodup, h.bound, hsize ▸ h.size⟩

/-- Promoting a live entry. -/
theorem promote (h : Threaded cfg s free lru chain) (hi : i ∈ lru) :
    Threaded cfg (s.promote i) free (i :: lru.erase i) chain := by
  have hperm : lru.Perm (i :: lru.erase i) := List.perm_cons_erase hi
  have hall : (free ++ lru).Perm (free ++ i :: lru.erase i) := hperm.append_left free
  refine ⟨h.recency.promote h.lru_nodup hi, h.links, ?_, ?_, hall.nodup_iff.mp h.nodup, ?_, ?_⟩
  · intro b hb j hj
    exact hperm.mem_iff.mp (h.live b hb j hj)
  · intro j hj
    exact h.chained j (hperm.mem_iff.mpr hj)
  · intro j hj
    exact h.bound j (hall.mem_iff.mpr hj)
  · exact h.size.trans hperm.length_eq

/-- Acquiring the first free entry. -/
theorem acquire (h : Threaded cfg s (i :: free) lru chain) :
    s.links.acquire.1 = some i ∧
      Threaded cfg { s with links := s.links.acquire.2 } free lru chain ∧ i ∉ free ++ lru ∧
      i < cfg.capacity := by
  obtain ⟨hentry, hlinks⟩ := h.links.acquire
  obtain ⟨hi, hnodup⟩ := List.nodup_cons.mp h.nodup
  exact ⟨hentry, ⟨h.recency, hlinks, h.live, h.chained, hnodup,
    fun j hj => h.bound j (List.mem_cons_of_mem i hj), h.size⟩, hi, h.bound i List.mem_cons_self⟩

/-- Releasing an entry that is on no list. -/
theorem release (h : Threaded cfg s free lru chain) (hi : i ∉ free ++ lru) (hcap : i < cfg.capacity) :
    Threaded cfg (releaseEntry s i) (i :: free) lru chain := by
  have hfree : i ∉ free := fun hmem => hi (List.mem_append_left lru hmem)
  have hlive : i ∉ lru := fun hmem => hi (List.mem_append_right free hmem)
  refine ⟨h.recency.forget hlive, h.links.release hfree (h.notMem_chain hlive), h.live, h.chained,
    List.nodup_cons.mpr ⟨hi, h.nodup⟩, ?_, h.size⟩
  intro j hj
  rcases List.mem_cons.mp hj with rfl | hj
  · exact hcap
  · exact h.bound j hj

/-- The chains without the entry `i`. -/
theorem mem_detached (h : Threaded cfg s free lru chain) (hb : b < cfg.bucketCount)
    (hchain : chain b = as ++ i :: bs) {c : ℕ} (hc : c < cfg.bucketCount) (j : ℕ) :
    j ∈ Function.update chain b (as ++ bs) c ↔ j ∈ chain c ∧ j ≠ i := by
  have hnodup := h.links.chain_nodup b hb
  rw [hchain] at hnodup
  have hnot := (List.nodup_cons.mp (List.nodup_middle.mp hnodup)).1
  by_cases hcb : c = b
  · subst hcb
    rw [Function.update_self, hchain, List.mem_append, List.mem_append, List.mem_cons]
    constructor
    · intro hj
      refine ⟨hj.imp_right Or.inr, ?_⟩
      rintro rfl
      exact hnot (List.mem_append.mpr hj)
    · rintro ⟨hj | hj | hj, hne⟩
      · exact .inl hj
      · exact absurd hj hne
      · exact .inr hj
  · rw [Function.update_of_ne hcb]
    refine ⟨fun hj => ⟨hj, ?_⟩, fun hj => hj.1⟩
    rintro rfl
    exact hcb (h.chain_unique hc hb hj (by simp [hchain]))

/-- Taking a live entry off the recency list and off its chain. -/
theorem detach (h : Threaded cfg s free lru chain) (hb : b < cfg.bucketCount)
    (hchain : chain b = as ++ i :: bs) :
    Threaded cfg
      { s with
        recency := s.recency.lruUnlink i
        links := s.links.hashUnlink b i as.getLast?
        size := s.size - 1 }
      free (lru.erase i) (Function.update chain b (as ++ bs)) := by
  have hi : i ∈ lru := h.live b hb i (by simp [hchain])
  have hnodup := h.lru_nodup
  have hsub : (lru.erase i).Sublist lru := List.erase_sublist
  refine ⟨?_, h.links.hashUnlink hb hchain, ?_, ?_, ?_, ?_, ?_⟩
  · obtain ⟨xs, ys, -, rfl, herase⟩ := List.exists_erase_eq hi
    rw [herase]
    exact h.recency.lruUnlink hnodup
  · intro c hc j hj
    obtain ⟨hj, hne⟩ := (h.mem_detached hb hchain hc j).mp hj
    exact hnodup.mem_erase_iff.mpr ⟨hne, h.live c hc j hj⟩
  · intro j hj
    obtain ⟨hne, hj⟩ := hnodup.mem_erase_iff.mp hj
    obtain ⟨c, hc, hjc⟩ := h.chained j hj
    exact ⟨c, hc, (h.mem_detached hb hchain hc j).mpr ⟨hjc, hne⟩⟩
  · exact h.nodup.sublist (hsub.append_left free)
  · intro j hj
    exact h.bound j ((hsub.append_left free).subset hj)
  · show s.size - 1 = _
    rw [List.length_erase_of_mem hi, h.size]

/-- The chains with the entry `i` in front of that of `b`. -/
theorem mem_attached {c : ℕ} (j : ℕ) :
    j ∈ Function.update chain b (i :: chain b) c ↔ (j = i ∧ c = b) ∨ j ∈ chain c := by
  by_cases hcb : c = b
  · subst hcb
    simp
  · simp [hcb]

/-- Linking an entry that is on no list in front of a chain and of the recency list. -/
theorem attach (h : Threaded cfg s free lru chain) (hb : b < cfg.bucketCount) (hi : i ∉ free ++ lru)
    (hcap : i < cfg.capacity) :
    Threaded cfg
      { s with
        links := s.links.hashLink b i
        recency := s.recency.lruPushFront i
        size := s.size + 1 }
      free (i :: lru) (Function.update chain b (i :: chain b)) := by
  have hfree : i ∉ free := fun hmem => hi (List.mem_append_left lru hmem)
  have hlive : i ∉ lru := fun hmem => hi (List.mem_append_right free hmem)
  have hmiddle : (free ++ i :: lru).Perm (i :: (free ++ lru)) := List.perm_middle
  refine ⟨h.recency.lruPushFront h.lru_nodup hlive,
    h.links.hashLink hb hfree (h.notMem_chain hlive), ?_, ?_, ?_, ?_, ?_⟩
  · intro c hc j hj
    rcases (mem_attached j).mp hj with ⟨rfl, -⟩ | hj
    · exact List.mem_cons_self
    · exact List.mem_cons_of_mem i (h.live c hc j hj)
  · intro j hj
    rcases List.mem_cons.mp hj with rfl | hj
    · exact ⟨b, hb, (mem_attached j).mpr (.inl ⟨rfl, rfl⟩)⟩
    · obtain ⟨c, hc, hjc⟩ := h.chained j hj
      exact ⟨c, hc, (mem_attached j).mpr (.inr hjc)⟩
  · exact hmiddle.nodup_iff.mpr (List.nodup_cons.mpr ⟨hi, h.nodup⟩)
  · intro j hj
    rcases List.mem_cons.mp (hmiddle.mem_iff.mp hj) with rfl | hj
    · exact hcap
    · exact h.bound j hj
  · show s.size + 1 = _
    rw [List.length_cons, h.size]

end Threaded

end LruCache

end Memkit
