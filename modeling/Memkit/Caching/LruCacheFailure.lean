import Memkit.Caching.LruCacheCalls
import Memkit.Caching.LruCacheRefinement

/-! # A put that fails

`prepare_entry` evicts the least recent entry of a full cache before it copies the new key and value
into the entry, so a copy that fails has cost the cache a pair. With a free entry to copy to, or
when it refuses with `full`, a put that fails has changed nothing.

* **`SameContents`** — no lookup, size or traversal tells two caches apart.
* **`SpoilsVictim`** — the least recent entry is evicted for a pair that cannot be copied.
* **`failed_put_keeps_iff`** — in every run. -/

namespace Memkit

open LinkedChain

namespace LruCache

variable {w : ℕ} {K V : Type*}

/-- The visitor that collects the pairs it is shown. -/
def collectPairs (acc : List (K × V)) (key : K) (value : V) : Status × List (K × V) :=
  (.ok, acc ++ [(key, value)])

/-- The caches have the same pairs in the same order of recency, the same size and the same
answers to `contains`. -/
structure SameContents (cfg : LruConfig w K V) (s s' : LruCache K V) : Prop where
  size : s'.size = s.size
  mru : foreachMru cfg collectPairs s' [] = foreachMru cfg collectPairs s []
  lru : foreachLru cfg collectPairs s' [] = foreachLru cfg collectPairs s []
  contains : ∀ key, LruCache.contains cfg s' key = LruCache.contains cfg s key

/-- A put of a new key finds no free entry and a full cache, and one of its copies over the victim
fails. -/
def SpoilsVictim (cfg : LruConfig w K V) (s : LruCache K V) (key : K) (value : V) : Prop :=
  s.links.freeList = none ∧ cfg.capacity ≤ s.size ∧
    ∃ victim ∈ s.recency.tail, ¬ CopiesOk cfg (destroyEntry cfg s victim) victim key value

instance (cfg : LruConfig w K V) (s : LruCache K V) (key : K) (value : V) :
    Decidable (SpoilsVictim cfg s key value) :=
  match htail : s.recency.tail with
  | none => isFalse fun ⟨_, _, victim, hmem, _⟩ => by rw [htail] at hmem; cases hmem
  | some victim =>
    decidable_of_iff (s.links.freeList = none ∧ cfg.capacity ≤ s.size ∧
      ¬ CopiesOk cfg (destroyEntry cfg s victim) victim key value) (by
        rw [SpoilsVictim, htail]
        simp)

variable {cfg : LruConfig w K V} {s s' : LruCache K V} {free free' lru : List ℕ}
  {chain chain' : ℕ → List ℕ} {key : K} {value : V}

/-- Both traversals of a cache of some shape visit what its live entries hold. -/
theorem Shape.foreach_eq (h : Shape cfg s free lru chain) {σ : Type*}
    (visit : σ → K → V → Status × σ) (acc : σ) :
    foreachMru cfg visit s acc = some (LruReference.visitAll visit (entries s lru) acc) ∧
      foreachLru cfg visit s acc =
        some (LruReference.visitAll visit (entries s lru.reverse) acc) := by
  have hlen : lru.length ≤ cfg.capacity :=
    h.length_le h.lru_nodup fun i hi => List.mem_append_right free hi
  refine ⟨foreachLoop_spec visit acc h.recency.1 hlen, foreachLoop_spec visit acc h.recency.2 ?_⟩
  rwa [List.length_reverse]

/-- Caches whose live entries hold the same, in the same order, have the same contents. -/
theorem Shape.sameContents (hlaw : cfg.hashEqPolicy.Lawful) (hbuckets : 0 < cfg.bucketCount)
    (h : Shape cfg s free lru chain) (h' : Shape cfg s' free' lru chain')
    (hkeys : ∀ j ∈ lru, s'.keys j = s.keys j) (hvalues : ∀ j ∈ lru, s'.values j = s.values j) :
    SameContents cfg s s' := by
  have hreverse : entries s' lru.reverse = entries s lru.reverse :=
    entries_congr (fun j hj => hkeys j (List.mem_reverse.mp hj))
      fun j hj => hvalues j (List.mem_reverse.mp hj)
  refine ⟨h'.size.trans h.size.symm, ?_, ?_, fun key => ?_⟩
  · rw [(h.foreach_eq _ _).1, (h'.foreach_eq _ _).1, entries_congr hkeys hvalues]
  · rw [(h.foreach_eq _ _).2, (h'.foreach_eq _ _).2, hreverse]
  · cases key with
    | none => rfl
    | some key =>
      unfold LruCache.contains
      dsimp only
      rcases h.find hlaw hbuckets key with ⟨i, hi, hequal, -, as, bs, -, hfind⟩ | ⟨hnone, last, hfind⟩
      · rcases h'.find hlaw hbuckets key with ⟨j, -, -, -, as', bs', -, hfind'⟩ | ⟨hnone, -⟩
        · rw [hfind, hfind']
          rfl
        · have hmissing := hnone i hi
          rw [hkeys i hi, hequal] at hmissing
          cases hmissing
      · rcases h'.find hlaw hbuckets key with ⟨j, hj, hequal, -⟩ | ⟨-, last', hfind'⟩
        · rw [hkeys j hj, hnone j hj] at hequal
          cases hequal
        · rw [hfind, hfind']

section Put

variable (hlaw : cfg.hashEqPolicy.Lawful) (hbuckets : 0 < cfg.bucketCount)
  (hkey : cfg.keyPolicy.Faithful) (hvalue : cfg.valuePolicy.Faithful)

include hlaw hbuckets hkey hvalue

/-- **A put of a new key**: done, or refused with the contents as they were, or failed with the
victim gone. -/
theorem Shape.put_cases (hcap : 0 < cfg.capacity) (h : Shape cfg s free lru chain)
    (hnew : ∀ j ∈ lru, cfg.hashEqPolicy.equal (s.keys j) key = false) (value : V) :
    (¬ SpoilsVictim cfg s key value ∧
        ((put cfg s (some key) (some value)).1 = .put .ok ∨
          SameContents cfg s (put cfg s (some key) (some value)).2)) ∨
      (SpoilsVictim cfg s key value ∧ (put cfg s (some key) (some value)).1 ≠ .put .ok ∧
        (put cfg s (some key) (some value)).2.size + 1 = s.size) := by
  cases free with
  | cons i free =>
    -- an entry is free
    refine .inl ⟨?_, ?_⟩
    · rintro ⟨hnone, -⟩
      rw [h.links.free_walk.1] at hnone
      cases hnone
    · by_cases hcopies : CopiesOk cfg s i key value
      · obtain ⟨s', chain', hput, -⟩ := (put_new_free hlaw hbuckets hkey hvalue h hnew).1 hcopies
        exact .inl (by rw [hput])
      · obtain ⟨st, s', -, hput, hshape, hkeys, hvalues⟩ :=
          (put_new_free hlaw hbuckets hkey hvalue h hnew).2 hcopies
        right
        rw [hput]
        exact h.sameContents hlaw hbuckets hshape hkeys hvalues
  | nil =>
    by_cases hfull : cfg.capacity ≤ s.size
    · obtain ⟨init, victim, rfl⟩ := (h.threaded hbuckets).exists_victim hcap hfull
      have htail : s.recency.tail = some victim := by
        rw [h.recency.tail_eq, List.getLast?_concat]
      by_cases hcopies : CopiesOk cfg (destroyEntry cfg s victim) victim key value
      · obtain ⟨s', chain', hput, -⟩ :=
          (put_new_full hlaw hbuckets hkey hvalue h hfull hnew).1 hcopies
        refine .inl ⟨?_, .inl (by rw [hput])⟩
        rintro ⟨-, -, victim', hvictim, hfails⟩
        obtain rfl : victim = victim' := Option.some.inj (htail.symm.trans hvictim)
        exact hfails hcopies
      · obtain ⟨st, s', chain', hst, hput, hshape, -⟩ :=
          (put_new_full hlaw hbuckets hkey hvalue h hfull hnew).2 hcopies
        refine .inr ⟨⟨h.links.free_walk, hfull, victim, htail, hcopies⟩, ?_, ?_⟩
        · rw [hput]
          exact fun heq => hst (Reply.put.inj heq)
        · rw [hput, hshape.size, h.size, List.length_append]
          rfl
    · -- lost entries left no room
      refine .inl ⟨fun hspoils => hfull hspoils.2.1, .inr ?_⟩
      obtain ⟨last, hfind⟩ := h.find_absent hlaw hbuckets hnew
      rw [put_noRoom h.links.acquire_nil hfull hfind]
      exact h.sameContents hlaw hbuckets h (fun _ _ => rfl) fun _ _ => rfl

/-- **When a failed put of a new key has changed nothing.** For every positive capacity and bucket
count, on a cache after any calls, whatever the copies do: exactly if it does not evict an entry for
a pair that cannot be copied. -/
theorem failed_put_keeps_iff (hcap : 0 < cfg.capacity) (memory : LruCache K V)
    (calls : List (Call K V)) :
    ∃ s₀, init cfg true memory = .ok s₀ ∧
      ∀ s, Mealy.final (call cfg) s₀ calls = s → ∀ key value,
        contains cfg s (some key) = .contains false →
          (((put cfg s (some key) (some value)).1 ≠ .put .ok →
              SameContents cfg s (put cfg s (some key) (some value)).2) ↔
            ¬ SpoilsVictim cfg s key value) := by
  obtain ⟨s₀, free, hinit, hshape, -⟩ := init_spec hcap hbuckets memory
  refine ⟨s₀, hinit, ?_⟩
  rintro s rfl key value habsent
  obtain ⟨free, lru, chain, h⟩ := (Mealy.everyCall_true s₀ calls).final_invariant (Shaped cfg)
    (fun s c hs _ => (hs.call hlaw hbuckets hcap hkey hvalue c).2) ⟨free, [], _, hshape⟩
  have hnew := (h.contains_eq_false hlaw hbuckets key).mp habsent
  rcases h.put_cases hlaw hbuckets hkey hvalue hcap hnew value with
    ⟨hsafe, hdone | hsame⟩ | ⟨hspoils, hst, hsize⟩
  · exact iff_of_true (fun hst => absurd hdone hst) hsafe
  · exact iff_of_true (fun _ => hsame) hsafe
  · refine iff_of_false (fun hkeeps => ?_) (not_not.mpr hspoils)
    have hsame := (hkeeps hst).size
    omega

end Put

/-- A cache of two entries in which one is free: the third copy of a value fails, and the pair of
the first key stays. -/
def roomyConfig : LruConfig 64 ℕ ℕ := { failingConfig with capacity := 2 }

/-- The failed put of a second key into a cache with room keeps the first. -/
theorem failed_put_keeps_two :
    (put roomyConfig (Mealy.final (call roomyConfig) (resetFreeList roomyConfig blank)
        [.put (some 1) (some 10)]) (some 2) (some 20)).1 = .put .oom ∧
      SameContents roomyConfig
        (Mealy.final (call roomyConfig) (resetFreeList roomyConfig blank)
          [.put (some 1) (some 10)])
        (put roomyConfig (Mealy.final (call roomyConfig) (resetFreeList roomyConfig blank)
          [.put (some 1) (some 10)]) (some 2) (some 20)).2 := by
  obtain ⟨s₀, hinit, hkeeps⟩ := failed_put_keeps_iff (HashPolicy.lawful_ofDecEq _)
    (show 0 < roomyConfig.bucketCount by decide) (ElementPolicy.nonFailing_bytewise ℕ).faithful
    faithful_failingConfig (by decide) blank [.put (some 1) (some 10)]
  obtain rfl : resetFreeList roomyConfig blank = s₀ := Except.ok.inj hinit
  have hfails : (put roomyConfig (Mealy.final (call roomyConfig) (resetFreeList roomyConfig blank)
      [.put (some 1) (some 10)]) (some 2) (some 20)).1 = .put .oom := by decide
  refine ⟨hfails, (hkeeps _ rfl 2 20 (by decide)).mpr (by decide) ?_⟩
  rw [hfails]
  decide

/-- The failed put of a second key into a cache of one entry loses the first. -/
theorem failed_put_loses_pair :
    Mealy.outputs (call failingConfig) (resetFreeList failingConfig blank)
        [.put (some 1) (some 10), .contains (some 2), .put (some 2) (some 20), .contains (some 1)] =
      [.put .ok, .contains false, .put .oom, .contains false] ∧
    ¬ SameContents failingConfig
      (Mealy.final (call failingConfig) (resetFreeList failingConfig blank)
        [.put (some 1) (some 10)])
      (put failingConfig (Mealy.final (call failingConfig) (resetFreeList failingConfig blank)
        [.put (some 1) (some 10)]) (some 2) (some 20)).2 := by
  refine ⟨by decide, fun hsame => ?_⟩
  exact absurd hsame.size (by decide)

end LruCache

end Memkit
