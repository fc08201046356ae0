import Memkit.Caching.LruCacheOperations
import Memkit.Core.EntryLedger

/-! # The objects in the entries of the LRU cache

The events of a call, at the places where the core copies to an entry and destroys one, and the
invariant that the entries with live objects are those of the recency list.

* **`callEvents`** — what a call constructs and destroys inside the cache.
* **`Fresh`** — all calls but a put of a stored key, which constructs a value over the one that is
  there.
* **`FindsVictim`** — all calls but an eviction that looks its victim up on the wrong chain.
* **`settledRuns`** — the runs of such calls. -/

namespace Memkit

open LinkedChain EntryLedger
open Ledger (Event)

namespace LruCache

variable {w : ℕ} {K V : Type*}

/-! ## Events -/

/-- The events of the copies at the end of `prepare_entry`. -/
def fillEvents (cfg : LruConfig w K V) (s : LruCache K V) (slot : ℕ) (key : K) (value : V) :
    List (Event (Part × ℕ)) :=
  constructBoth slot (cfg.keyPolicy.copyConstruct s.copies (s.keys slot) key).1
    (cfg.valuePolicy.copyConstruct (s.copies + 1) (s.values slot) value).1

/-- The events of `prepare_entry`: those of the eviction come first. -/
def prepareEvents (cfg : LruConfig w K V) (s : LruCache K V) (key : K) (value : V) :
    List (Event (Part × ℕ)) :=
  match s.links.acquire with
  | (some slot, links) => fillEvents cfg { s with links := links } slot key value
  | (none, _) =>
    match s.recency.tail with
    | none => []
    | some slot =>
      if s.size < cfg.capacity then []
      else
        match findEntry cfg s (s.keys slot) with
        | none => []
        | some found =>
          destroyBoth slot ++ fillEvents cfg (evict cfg s slot found.prev) slot key value

/-- The events of `put`; a stored key gets its value by `copy_construct`. -/
def putEvents (cfg : LruConfig w K V) (s : LruCache K V) (key : Option K) (value : Option V) :
    List (Event (Part × ℕ)) :=
  match key, value with
  | some key, some value =>
    match findEntry cfg s key with
    | none => []
    | some ⟨some slot, _⟩ =>
      [.construct (.value, slot)
        ((cfg.valuePolicy.copyConstruct s.copies (s.values slot) value).1 = .ok)]
    | some ⟨none, _⟩ => prepareEvents cfg s key value
  | _, _ => []

/-- The events of `remove`. -/
def removeEvents (cfg : LruConfig w K V) (s : LruCache K V) (key : Option K) :
    List (Event (Part × ℕ)) :=
  match key with
  | none => []
  | some key =>
    match findEntry cfg s key with
    | some ⟨some slot, _⟩ => destroyBoth slot
    | _ => []

/-- The events of the inner loop of `clear`. -/
def clearChainEvents (cfg : LruConfig w K V) :
    ℕ → LruCache K V → Option ℕ → List (Event (Part × ℕ))
  | _, _, none => []
  | 0, _, some _ => []
  | rounds + 1, s, some current =>
    destroyBoth current ++
      clearChainEvents cfg rounds (releaseEntry (destroyEntry cfg s current) current)
        (s.links.hashNext current)

/-- The events of the outer loop of `clear`. -/
def clearBucketsEvents (cfg : LruConfig w K V) : List ℕ → LruCache K V → List (Event (Part × ℕ))
  | [], _ => []
  | i :: is, s =>
    clearChainEvents cfg cfg.capacity s (s.links.buckets i) ++
      match clearChain cfg cfg.capacity s (s.links.buckets i) with
      | none => []
      | some s =>
        clearBucketsEvents cfg is
          { s with links := { s.links with buckets := Function.update s.links.buckets i none } }

/-- The events of `clear`. -/
def clearEvents (cfg : LruConfig w K V) (s : LruCache K V) : List (Event (Part × ℕ)) :=
  if s.size = 0 then [] else clearBucketsEvents cfg (List.range cfg.bucketCount) s

/-- The events of a call; `get` and `peek` copy to memory of the caller. -/
def callEvents (cfg : LruConfig w K V) (s : LruCache K V) : Call K V → List (Event (Part × ℕ))
  | .put key value => putEvents cfg s key value
  | .remove key => removeEvents cfg s key
  | .clear => clearEvents cfg s
  | _ => []

/-- **The condition**: not a put of a stored key. -/
def Fresh (cfg : LruConfig w K V) (s : LruCache K V) : Call K V → Prop
  | .put (some key) (some _) => contains cfg s (some key) = .contains false
  | _ => True

instance [DecidableEq V] (cfg : LruConfig w K V) (s : LruCache K V) :
    ∀ c, Decidable (Fresh cfg s c)
  | .put (some key) (some _) =>
    inferInstanceAs (Decidable (contains cfg s (some key) = .contains false))
  | .put none _ => isTrue trivial
  | .put (some _) none => isTrue trivial
  | .get _ _ => isTrue trivial
  | .peek _ _ => isTrue trivial
  | .touch _ => isTrue trivial
  | .remove _ => isTrue trivial
  | .contains _ => isTrue trivial
  | .clear => isTrue trivial

/-- An eviction finds its victim under the key that the victim holds. -/
def FindsVictim (cfg : LruConfig w K V) (s : LruCache K V) : Call K V → Prop
  | .put (some _) (some _) =>
    s.links.freeList = none → cfg.capacity ≤ s.size → ∀ victim ∈ s.recency.tail,
      (findEntry cfg s (s.keys victim)).map (·.entry) = some (some victim)
  | _ => True

instance (cfg : LruConfig w K V) (s : LruCache K V) : ∀ c, Decidable (FindsVictim cfg s c)
  | .put (some _) (some _) =>
    inferInstanceAs (Decidable (s.links.freeList = none → cfg.capacity ≤ s.size →
      ∀ victim ∈ s.recency.tail,
        (findEntry cfg s (s.keys victim)).map (·.entry) = some (some victim)))
  | .put none _ => isTrue trivial
  | .put (some _) none => isTrue trivial
  | .get _ _ => isTrue trivial
  | .peek _ _ => isTrue trivial
  | .touch _ => isTrue trivial
  | .remove _ => isTrue trivial
  | .contains _ => isTrue trivial
  | .clear => isTrue trivial

/-! ## `clear` -/

variable {cfg : LruConfig w K V} {s : LruCache K V} {free lru : List ℕ} {chain : ℕ → List ℕ}
  {i : ℕ} {l : Ledger (Part × ℕ)}

/-- The inner loop destroys the entries of the chain. -/
theorem clearChainEvents_eq {b : ℕ} (hb : b < cfg.bucketCount) (xs : List ℕ) :
    ∀ (rounds : ℕ) (s : LruCache K V) (p : Option ℕ) (free : List ℕ), xs.length ≤ rounds →
      (aimed s.links b p).Walks cfg.bucketCount free (Function.update chain b xs) →
      clearChainEvents cfg rounds s p = xs.flatMap destroyBoth := by
  induction xs with
  | nil =>
    intro rounds s p free _ hw
    obtain rfl : p = none := walks_aimed_head hb hw
    simp [clearChainEvents]
  | cons x xs ih =>
    intro rounds s p free hlen hw
    obtain rfl : p = some x := walks_aimed_head hb hw
    obtain ⟨rounds, rfl⟩ : ∃ r, rounds = r + 1 := ⟨rounds - 1, by simp at hlen; omega⟩
    rw [clearChainEvents, List.flatMap_cons]
    exact congrArg (destroyBoth x ++ ·)
      (ih rounds _ _ (x :: free) (by simpa using hlen) (walks_clearChain_step hb hw))

/-- The outer loop destroys the entries of the chains of its buckets. -/
theorem clearBucketsEvents_eq (is : List ℕ) :
    ∀ (s : LruCache K V) (free : List ℕ) (chain : ℕ → List ℕ), is.Nodup →
      (∀ b ∈ is, b < cfg.bucketCount ∧ (chain b).length ≤ cfg.capacity) →
      s.links.Walks cfg.bucketCount free chain →
      clearBucketsEvents cfg is s = (is.flatMap chain).flatMap destroyBoth := by
  induction is with
  | nil =>
    intro s free chain _ _ _
    rfl
  | cons b is ih =>
    intro s free chain hnodup hbound hw
    obtain ⟨hb, hlen⟩ := hbound b List.mem_cons_self
    obtain ⟨hnot, hnodup⟩ := List.nodup_cons.mp hnodup
    have haimed := walks_aimed_self hw b
    obtain ⟨s₁, hclear, hw₁⟩ := clearChain_spec hb (chain b) cfg.capacity s _ free hlen haimed
    have hsame : ∀ c ∈ is, Function.update chain b [] c = chain c := by
      intro c hc
      apply Function.update_of_ne
      rintro rfl
      exact hnot hc
    have hrest := ih { s₁ with links := aimed s₁.links b none } _ _ hnodup
      (fun c hc => by
        rw [hsame c hc]
        exact hbound c (List.mem_cons_of_mem b hc)) hw₁
    rw [clearBucketsEvents, clearChainEvents_eq hb (chain b) cfg.capacity s _ free hlen haimed,
      List.flatMap_cons, List.flatMap_append, hclear]
    have hchains : is.flatMap (Function.update chain b []) = is.flatMap chain :=
      List.flatMap_congr hsame
    rw [← hchains]
    exact congrArg ((chain b).flatMap destroyBoth ++ ·) hrest

/-- **`clear`** destroys the live entries, once each. -/
theorem Threaded.clearEvents_eq (h : Threaded cfg s free lru chain) :
    ∃ nodes : List ℕ, nodes.Perm lru ∧ clearEvents cfg s = nodes.flatMap destroyBoth := by
  unfold clearEvents
  by_cases hsize : s.size = 0
  · obtain rfl : lru = [] := List.length_eq_zero_iff.mp (h.size ▸ hsize)
    exact ⟨[], .refl _, by rw [if_pos hsize]; rfl⟩
  · rw [if_neg hsize]
    refine ⟨(List.range cfg.bucketCount).flatMap chain, ?_, ?_⟩
    · have hnodup : ((List.range cfg.bucketCount).flatMap chain).Nodup := by
        refine List.nodup_flatMap.mpr ⟨fun b hb => h.links.chain_nodup b (List.mem_range.mp hb), ?_⟩
        refine List.nodup_range.imp_of_mem ?_
        intro b c hb hc hbc
        exact fun i hi hi' => h.links.apart b (List.mem_range.mp hb) c (List.mem_range.mp hc) hbc i
          hi hi'
      rw [List.perm_ext_iff_of_nodup hnodup h.lru_nodup]
      intro i
      rw [List.mem_flatMap]
      constructor
      · rintro ⟨b, hb, hi⟩
        exact h.live b (List.mem_range.mp hb) i hi
      · intro hi
        obtain ⟨b, hb, hib⟩ := h.chained i hi
        exact ⟨b, List.mem_range.mpr hb, hib⟩
    · refine clearBucketsEvents_eq _ s free chain List.nodup_range ?_ h.links
      intro b hb
      exact ⟨List.mem_range.mp hb, h.chain_length_le (List.mem_range.mp hb)⟩

/-- What `clear` does to the objects of the live entries. -/
theorem Threaded.replay_clearEvents (h : Threaded cfg s free lru chain)
    (hl : l.Holds (bothParts {i | i ∈ lru})) : (l.replay (clearEvents cfg s)).Holds ∅ := by
  obtain ⟨nodes, hperm, hevents⟩ := h.clearEvents_eq
  rw [← show {i | i ∈ nodes} = {i | i ∈ lru} from Set.ext fun i => hperm.mem_iff] at hl
  rw [hevents]
  exact replay_flatMap_destroyBoth hl (hperm.nodup_iff.mpr h.lru_nodup)

/-! ## `put` and `remove` -/

/-- Filling an entry that is on no list: both objects are there afterwards, or neither. -/
theorem Threaded.fill (h : Threaded cfg s free lru chain) (hi : i ∉ free ++ lru)
    (hcap : i < cfg.capacity) (fromFree : Bool) (key : K) (value : V) :
    (∃ s', fillEntry cfg s i fromFree key value = (.ok, s') ∧ Threaded cfg s' free lru chain ∧
      ∀ l : Ledger (Part × ℕ), l.Holds (bothParts {i | i ∈ lru}) →
        (l.replay (fillEvents cfg s i key value)).Holds (bothParts {j | j ∈ i :: lru})) ∨
    ∃ st s' free', st ≠ .ok ∧ fillEntry cfg s i fromFree key value = (st, s') ∧
      Threaded cfg s' free' lru chain ∧
      ∀ l : Ledger (Part × ℕ), l.Holds (bothParts {i | i ∈ lru}) →
        (l.replay (fillEvents cfg s i key value)).Holds (bothParts {i | i ∈ lru}) := by
  have hlive : i ∉ lru := fun hmem => hi (List.mem_append_right free hmem)
  by_cases hok : CopiesOk cfg s i key value
  · obtain ⟨s', hsame, hfill⟩ := fillEntry_copied hok fromFree
    refine .inl ⟨s', hfill, h.sameBut hsame, fun l hl => ?_⟩
    rw [Ledger.setOf_mem_perm (List.Perm.refl (i :: lru))]
    exact replay_constructBoth hl hlive hok.1 hok.2
  · obtain ⟨st, s', hst, hsame, hfill⟩ := fillEntry_fail hok fromFree
    have hevents : ∀ l : Ledger (Part × ℕ), l.Holds (bothParts {i | i ∈ lru}) →
        (l.replay (fillEvents cfg s i key value)).Holds (bothParts {i | i ∈ lru}) :=
      fun l hl => replay_constructBoth_fail hl hlive hok
    have hkept := h.sameBut hsame
    cases fromFree with
    | true => exact .inr ⟨st, _, i :: free, hst, hfill, hkept.release hi hcap, hevents⟩
    | false => exact .inr ⟨st, _, free, hst, hfill, hkept, hevents⟩

/-- **`put`** of a key that is not found, once `prepare_entry` has got hold of an entry. -/
theorem Threaded.put_fill (hpos : 0 < cfg.bucketCount) {s₁ : LruCache K V}
    (h : Threaded cfg s₁ free lru chain) (hi : i ∉ free ++ lru) (hcap : i < cfg.capacity)
    {fromFree : Bool} {key : K} {value : V} {last : Option ℕ}
    (hfind : findEntry cfg s key = some ⟨none, last⟩)
    (hprepare : prepareEntry cfg s key value =
      some ((fillEntry cfg s₁ i fromFree key value).1, i,
        (fillEntry cfg s₁ i fromFree key value).2)) :
    ∃ st s' free' lru' chain', put cfg s (some key) (some value) = (.put st, s') ∧
      Threaded cfg s' free' lru' chain' ∧
      ∀ l : Ledger (Part × ℕ), l.Holds (bothParts {i | i ∈ lru}) →
        (l.replay (fillEvents cfg s₁ i key value)).Holds (bothParts {i | i ∈ lru'}) := by
  rcases h.fill hi hcap fromFree key value with
    ⟨s', hfill, hfilled, hl⟩ | ⟨st, s', free', hst, hfill, hfailed, hl⟩
  · have hlinked := hfilled.attach (bucketOf_lt hpos key) hi hcap
    refine ⟨.ok, _, free, i :: lru, _, ?_, hlinked, hl⟩
    simp only [put, hfind, hprepare, hfill, ne_eq, not_true_eq_false, if_false]
  · refine ⟨st, s', free', lru, chain, ?_, hfailed, hl⟩
    simp only [put, hfind, hprepare, hfill, ne_eq, hst, not_false_eq_true, if_true]

/-- Evicting an entry that is found takes it off every list. -/
theorem Threaded.evict (hpos : 0 < cfg.bucketCount) (h : Threaded cfg s free lru chain)
    {prev : Option ℕ} (hfind : findEntry cfg s (s.keys i) = some ⟨some i, prev⟩) :
    ∃ chain', Threaded cfg (evict cfg s i prev) free (lru.erase i) chain' := by
  rcases h.find hpos (s.keys i) with ⟨j, -, -, as, bs, hchain, hfound⟩ | ⟨-, last, hfound⟩
  · rw [hfound] at hfind
    cases hfind
    exact ⟨_, (h.detach (bucketOf_lt hpos _) hchain).congr rfl rfl rfl⟩
  · rw [hfound] at hfind
    cases hfind

/-- **`put`** of a key that is not found returns; if it finds its victim, the objects are those of
the live entries afterwards. -/
theorem Threaded.put_absent (hpos : 0 < cfg.bucketCount) (hcap : 0 < cfg.capacity)
    (h : Threaded cfg s free lru chain) {key : K} {value : V} {last : Option ℕ}
    (hfind : findEntry cfg s key = some ⟨none, last⟩)
    (hvictim : FindsVictim cfg s (.put (some key) (some value))) :
    ∃ st s' free' lru' chain', put cfg s (some key) (some value) = (.put st, s') ∧
      Threaded cfg s' free' lru' chain' ∧
      ∀ l : Ledger (Part × ℕ), l.Holds (bothParts {i | i ∈ lru}) →
        (l.replay (putEvents cfg s (some key) (some value))).Holds (bothParts {i | i ∈ lru'}) := by
  have hput : putEvents cfg s (some key) (some value) = prepareEvents cfg s key value := by
    simp only [putEvents, hfind]
  rw [hput]
  cases free with
  | cons i free =>
    -- the first free entry
    obtain ⟨hentry, hacquired, hi, hbound⟩ := h.acquire
    have hacquire : s.links.acquire = (some i, s.links.acquire.2) := Prod.ext hentry rfl
    have hevents : prepareEvents cfg s key value =
        fillEvents cfg { s with links := s.links.acquire.2 } i key value := by
      unfold prepareEvents
      rw [hacquire]
    have hprepare : prepareEntry cfg s key value =
        some ((fillEntry cfg { s with links := s.links.acquire.2 } i true key value).1, i,
          (fillEntry cfg { s with links := s.links.acquire.2 } i true key value).2) := by
      unfold prepareEntry
      rw [hacquire]
    rw [hevents]
    exact hacquired.put_fill hpos hi hbound hfind hprepare
  | nil =>
    have hacquire := h.links.acquire_nil
    by_cases hfull : cfg.capacity ≤ s.size
    · -- the least recent entry is evicted
      obtain ⟨init, victim, rfl⟩ := h.exists_victim hcap hfull
      have htail : s.recency.tail = some victim := by
        rw [h.recency.tail_eq, List.getLast?_concat]
      have hnodup := h.lru_nodup
      rw [← List.concat_eq_append, List.nodup_concat] at hnodup
      have herase : (init ++ [victim]).erase victim = init := by
        rw [List.erase_append_right _ hnodup.1]
        simp
      obtain ⟨⟨_, prev⟩, hfound, rfl⟩ :=
        Option.map_eq_some_iff.mp (hvictim h.links.free_walk hfull victim htail)
      obtain ⟨chain', hevicted⟩ := h.evict hpos hfound
      rw [herase] at hevicted
      have hevents : prepareEvents cfg s key value =
          destroyBoth victim ++ fillEvents cfg (LruCache.evict cfg s victim prev) victim key value := by
        simp only [prepareEvents, hacquire, htail, Nat.not_lt.mpr hfull, if_false, hfound]
      have hprepare : prepareEntry cfg s key value =
          some ((fillEntry cfg (LruCache.evict cfg s victim prev) victim false key value).1, victim,
            (fillEntry cfg (LruCache.evict cfg s victim prev) victim false key value).2) := by
        simp only [prepareEntry, hacquire, htail, Nat.not_lt.mpr hfull, if_false, hfound]
      have hgone : ∀ l : Ledger (Part × ℕ), l.Holds (bothParts {i | i ∈ init ++ [victim]}) →
          (l.replay (destroyBoth victim)).Holds (bothParts {i | i ∈ init}) := by
        intro l hl
        have hdestroyed := replay_destroyBoth hl (i := victim) (by simp)
        rw [Ledger.setOf_mem_perm (List.perm_append_singleton victim init)] at hdestroyed
        rwa [Set.insert_sdiff_self_of_notMem (s := {i | i ∈ init}) hnodup.1] at hdestroyed
      obtain ⟨st, s', free', lru', chain'', hcall, hthreaded, hl⟩ :=
        hevicted.put_fill hpos hnodup.1 (h.bound victim (by simp)) hfind hprepare
      refine ⟨st, s', free', lru', chain'', hcall, hthreaded, fun l hholds => ?_⟩
      rw [hevents, Ledger.replay_append]
      exact hl _ (hgone l hholds)
    · -- lost entries left no room
      have hnone : prepareEvents cfg s key value = [] := by
        unfold prepareEvents
        rw [hacquire]
        cases s.recency.tail with
        | none => rfl
        | some slot => simp [Nat.lt_of_not_le hfull]
      rw [hnone]
      exact ⟨.full, s, [], lru, chain, put_noRoom hacquire hfull hfind, h, fun l hl => hl⟩

/-- **`remove`** returns, and keeps the objects those of the live entries. -/
theorem Threaded.remove (hpos : 0 < cfg.bucketCount) (h : Threaded cfg s free lru chain)
    (key : Option K) :
    ∃ st s' free' lru' chain', remove cfg s key = (.remove st, s') ∧
      Threaded cfg s' free' lru' chain' ∧
      ∀ l : Ledger (Part × ℕ), l.Holds (bothParts {i | i ∈ lru}) →
        (l.replay (removeEvents cfg s key)).Holds (bothParts {i | i ∈ lru'}) := by
  cases key with
  | none => exact ⟨_, s, free, lru, chain, rfl, h, fun l hl => hl⟩
  | some key =>
    rcases h.find hpos key with ⟨i, hi, -, as, bs, hchain, hfind⟩ | ⟨-, last, hfind⟩
    · have hdetached := h.detach (bucketOf_lt hpos _) hchain
      have hout : i ∉ free ++ lru.erase i := by
        intro hmem
        rcases List.mem_append.mp hmem with hmem | hmem
        · exact (List.nodup_append.mp h.nodup).2.2 i hmem i hi rfl
        · exact ((h.lru_nodup.mem_erase_iff).mp hmem).1 rfl
      have hreleased := hdetached.release hout (h.bound i (List.mem_append_right _ hi))
      refine ⟨.ok, removed cfg s key i as.getLast?, _, _, _, ?_, hreleased.congr rfl rfl rfl,
        fun l hl => ?_⟩
      · simp only [LruCache.remove, hfind]
        rfl
      · have hdestroyed := replay_destroyBoth hl hi
        have hslots : {j | j ∈ lru} \ {i} = {j | j ∈ lru.erase i} := by
          ext j
          rw [Set.mem_sdiff, Set.mem_singleton_iff]
          exact ((h.lru_nodup.mem_erase_iff).trans and_comm).symm
        rw [hslots] at hdestroyed
        simpa only [removeEvents, hfind] using hdestroyed
    · refine ⟨.notFound, s, free, lru, chain, ?_, h, fun l hl => ?_⟩
      · simp only [LruCache.remove, hfind]
      · simp only [removeEvents, hfind]
        exact hl

/-! ## Every call -/

/-- The live objects are those of the entries on the recency list. -/
def Holding (cfg : LruConfig w K V) (s : LruCache K V × Ledger (Part × ℕ)) : Prop :=
  ∃ free lru chain, Threaded cfg s.1 free lru chain ∧ s.2.Holds (bothParts {i | i ∈ lru})

/-- What `init` makes, over an empty ledger. -/
theorem Threaded.holding (h : Threaded cfg s free [] chain) : Holding cfg (s, .empty _) := by
  refine ⟨free, [], chain, h, ?_⟩
  exact (congrArg (Ledger.Holds _) (by ext; simp [bothParts])).mp Ledger.holds_empty

theorem Holding.clear {s : LruCache K V × Ledger (Part × ℕ)} (h : Holding cfg s) :
    Holding cfg (Mealy.tracked (call cfg) (callEvents cfg) s .clear).2 ∧
      (s.2.replay (clearEvents cfg s.1)).Holds ∅ := by
  obtain ⟨free, lru, chain, h, hl⟩ := h
  have hempty := h.replay_clearEvents hl
  obtain ⟨s', free', chain', hclear, hthreaded, -⟩ := h.clear
  refine ⟨⟨free', [], chain', ?_, ?_⟩, hempty⟩
  · show Threaded cfg (LruCache.clear cfg s.1).2 free' [] chain'
    rw [hclear]
    exact hthreaded
  · exact (congrArg (Ledger.Holds _) (by ext; simp [bothParts])).mp hempty

theorem Holding.consulted {s : LruCache K V × Ledger (Part × ℕ)} {s' : LruCache K V}
    (hpos : 0 < cfg.bucketCount) (h : Holding cfg s) (hconsulted : Consulted cfg s.1 s') :
    Holding cfg (s', s.2) := by
  obtain ⟨free, lru, chain, h, hl⟩ := h
  obtain ⟨lru', hthreaded, hperm⟩ := h.consulted hpos hconsulted
  refine ⟨free, lru', chain, hthreaded, ?_⟩
  rwa [show {i | i ∈ lru'} = {i | i ∈ lru} from Set.ext fun i => hperm.mem_iff]

/-- **Every call** that puts no stored key and finds its victim keeps the objects those of the live
entries. -/
theorem Holding.call {s : LruCache K V × Ledger (Part × ℕ)} (hpos : 0 < cfg.bucketCount)
    (hcap : 0 < cfg.capacity) (h : Holding cfg s) {c : Call K V} (hfresh : Fresh cfg s.1 c)
    (hvictim : FindsVictim cfg s.1 c) :
    Holding cfg (Mealy.tracked (LruCache.call cfg) (callEvents cfg) s c).2 := by
  have hself := h
  obtain ⟨free, lru, chain, h, hl⟩ := h
  cases c with
  | get key out => exact hself.consulted hpos (get_consulted cfg s.1 key out)
  | peek key out => exact hself.consulted hpos (peek_consulted cfg s.1 key out)
  | touch key => exact hself.consulted hpos (touch_consulted cfg s.1 key)
  | contains key => exact hself
  | clear => exact hself.clear.1
  | remove key =>
    obtain ⟨st, s', free', lru', chain', hremove, hthreaded, hkeep⟩ := h.remove hpos key
    refine ⟨free', lru', chain', ?_, hkeep s.2 hl⟩
    show Threaded cfg (LruCache.remove cfg s.1 key).2 _ _ _
    rw [hremove]
    exact hthreaded
  | put key value =>
    match key, value with
    | none, _ => exact hself
    | some _, none => exact hself
    | some key, some value =>
      rcases h.find hpos key with ⟨i, -, -, as, bs, -, hfind⟩ | ⟨-, last, hfind⟩
      · -- the key is stored
        simp only [Fresh, contains, hfind] at hfresh
        cases hfresh
      · obtain ⟨st, s', free', lru', chain', hput, hthreaded, hkeep⟩ :=
          h.put_absent hpos hcap hfind hvictim
        refine ⟨free', lru', chain', ?_, hkeep s.2 hl⟩
        show Threaded cfg (LruCache.put cfg s.1 (some key) (some value)).2 _ _ _
        rw [hput]
        exact hthreaded

/-- **The objects of the cache**, in a run of such calls: every one is constructed in a place
without an object and destroyed once. -/
theorem Holding.settledRuns (hpos : 0 < cfg.bucketCount) (hcap : 0 < cfg.capacity)
    {s : LruCache K V × Ledger (Part × ℕ)} (h : Holding cfg s) :
    SettledRuns (Mealy.tracked (LruCache.call cfg) (callEvents cfg))
      (fun s c => Fresh cfg s.1 c ∧ FindsVictim cfg s.1 c) Prod.snd .clear s := by
  refine SettledRuns.of_invariant (Holding cfg)
    (fun s c hs hgood => hs.call hpos hcap hgood.1 hgood.2) h ?_ fun s hs => hs.clear.2
  rintro s ⟨free, lru, chain, -, hl⟩
  exact hl.no_fault

/-- With a lawful hash and faithful copies of keys an eviction finds its victim. -/
theorem Shape.findsVictim (hlaw : cfg.hashEqPolicy.Lawful) (hpos : 0 < cfg.bucketCount)
    (h : Shape cfg s free lru chain) (c : Call K V) : FindsVictim cfg s c := by
  match c with
  | .put (some key) (some value) =>
    intro _ _ victim htail
    have hmem : victim ∈ lru := by
      rw [h.recency.tail_eq] at htail
      exact List.mem_of_getLast? htail
    obtain ⟨prev, chain', hfind, -⟩ := h.evict hlaw hpos hmem
    rw [hfind]
    rfl
  | .put none _ => trivial
  | .put (some _) none => trivial
  | .get _ _ => trivial
  | .peek _ _ => trivial
  | .touch _ => trivial
  | .remove _ => trivial
  | .contains _ => trivial
  | .clear => trivial

end LruCache

end Memkit
