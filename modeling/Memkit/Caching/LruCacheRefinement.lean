import Memkit.Caching.LruCacheOperations
import Memkit.Caching.LruReference

/-! # The LRU cache refines the reference list

A cache with no lost entry, read along its recency list, is a reference list. Every call returns,
with the reply the reference gives, and leaves a cache that reads as the reference list after the
call. -/

namespace Memkit

open LinkedChain

namespace LruCache

variable {w : ℕ} {K V : Type*} {cfg : LruConfig w K V} {s : LruCache K V}
  {free lru : List ℕ} {chain : ℕ → List ℕ} {i : ℕ} {key : K} {value : V} {m : List (K × V)}

/-- The pairs that the entries `xs` hold. -/
def entries (s : LruCache K V) (xs : List ℕ) : List (K × V) := xs.map fun i => (s.keys i, s.values i)

/-- The cache reads as the reference list `m`, and every entry is live or free. -/
def Reads (cfg : LruConfig w K V) (s : LruCache K V) (m : List (K × V)) : Prop :=
  ∃ free lru chain, Shape cfg s free lru chain ∧ free.length + lru.length = cfg.capacity ∧
    entries s lru = m

/-- Counting copies does not change what is read. -/
theorem Reads.of_copies (hr : Reads cfg s m) (n : ℕ) : Reads cfg { s with copies := n } m := by
  obtain ⟨free, lru, chain, h, hcap, hm⟩ := hr
  exact ⟨free, lru, chain, h.congr rfl rfl rfl fun _ _ => rfl, hcap, hm⟩

/-- Entries that hold the same are read the same. -/
theorem entries_congr {s' : LruCache K V} {xs : List ℕ} (hkeys : ∀ j ∈ xs, s'.keys j = s.keys j)
    (hvalues : ∀ j ∈ xs, s'.values j = s.values j) : entries s' xs = entries s xs := by
  apply List.map_congr_left
  intro j hj
  rw [hkeys j hj, hvalues j hj]

/-- An absent key is not looked up. -/
theorem lookup_absent (hnone : ∀ j ∈ lru, cfg.hashEqPolicy.equal (s.keys j) key = false) :
    LruReference.lookup cfg.hashEqPolicy.equal (entries s lru) key = none := by
  apply List.find?_eq_none.mpr
  intro e he
  obtain ⟨j, hj, rfl⟩ := List.mem_map.mp he
  simp [hnone j hj]

/-- Of the live entries only the stored one has a key equal to the key looked for. -/
theorem Shape.equal_iff (hlaw : cfg.hashEqPolicy.Lawful) (h : Shape cfg s free lru chain)
    (hi : i ∈ lru) (hequal : cfg.hashEqPolicy.equal (s.keys i) key = true) {j : ℕ} (hj : j ∈ lru) :
    cfg.hashEqPolicy.equal (s.keys j) key = true ↔ j = i := by
  constructor
  · intro hjkey
    exact h.eq_of_equal hlaw hj hi (hlaw.trans _ _ _ hjkey (hlaw.symm _ _ hequal))
  · rintro rfl
    exact hequal

/-- A stored key is looked up where it is live. -/
theorem Shape.lookup (hlaw : cfg.hashEqPolicy.Lawful) (h : Shape cfg s free lru chain) (hi : i ∈ lru)
    (hequal : cfg.hashEqPolicy.equal (s.keys i) key = true) :
    LruReference.lookup cfg.hashEqPolicy.equal (entries s lru) key =
      some (s.keys i, s.values i) := by
  rw [LruReference.lookup, entries, List.find?_map]
  cases hfind : lru.find? ((fun e : K × V => cfg.hashEqPolicy.equal e.1 key) ∘
      fun i => (s.keys i, s.values i)) with
  | none =>
    have hno := List.find?_eq_none.mp hfind i hi
    exact absurd hequal hno
  | some j =>
    have hj : cfg.hashEqPolicy.equal (s.keys j) key = true := by simpa using List.find?_some hfind
    rw [(h.equal_iff hlaw hi hequal (List.mem_of_find?_eq_some hfind)).mp hj]
    rfl

/-- The pairs with other keys are those of the other entries. -/
theorem Shape.without (hlaw : cfg.hashEqPolicy.Lawful) (h : Shape cfg s free lru chain) (hi : i ∈ lru)
    (hequal : cfg.hashEqPolicy.equal (s.keys i) key = true) :
    LruReference.without cfg.hashEqPolicy.equal (entries s lru) key = entries s (lru.erase i) := by
  rw [LruReference.without, entries, entries, List.filter_map, h.lru_nodup.erase_eq_filter]
  congr 1
  apply List.filter_congr
  intro j hj
  have hiff := h.equal_iff hlaw hi hequal hj
  show (!cfg.hashEqPolicy.equal (s.keys j) key) = (j != i)
  rw [Bool.eq_iff_iff]
  simp only [Bool.not_eq_true', bne_iff_ne, ne_eq, ← hiff, Bool.not_eq_true]

/-- `find_entry` and the lookup in the reference agree. -/
theorem Shape.find_lookup (hlaw : cfg.hashEqPolicy.Lawful) (hpos : 0 < cfg.bucketCount)
    (h : Shape cfg s free lru chain) (key : K) :
    (∃ i ∈ lru, cfg.hashEqPolicy.equal (s.keys i) key = true ∧
      (∃ last, findEntry cfg s key = some ⟨some i, last⟩) ∧
      LruReference.lookup cfg.hashEqPolicy.equal (entries s lru) key =
        some (s.keys i, s.values i) ∧
      LruReference.without cfg.hashEqPolicy.equal (entries s lru) key =
        entries s (lru.erase i)) ∨
    ((∀ j ∈ lru, cfg.hashEqPolicy.equal (s.keys j) key = false) ∧
      (∃ last, findEntry cfg s key = some ⟨none, last⟩) ∧
      LruReference.lookup cfg.hashEqPolicy.equal (entries s lru) key = none) := by
  rcases h.find hlaw hpos key with ⟨i, hi, hequal, -, as, bs, -, hfind⟩ | ⟨hnone, hfind⟩
  · exact .inl ⟨i, hi, hequal, ⟨_, hfind⟩, h.lookup hlaw hi hequal, h.without hlaw hi hequal⟩
  · exact .inr ⟨hnone, hfind, lookup_absent hnone⟩

/-- Promoting the entry of a stored key moves its pair to the front. -/
theorem reads_promote (hlaw : cfg.hashEqPolicy.Lawful) (h : Shape cfg s free lru chain)
    (hcap : free.length + lru.length = cfg.capacity) (hi : i ∈ lru) :
    Reads cfg (s.promote i) ((s.keys i, s.values i) :: entries s (lru.erase i)) := by
  refine ⟨free, i :: lru.erase i, chain, h.promote hlaw hi, ?_, rfl⟩
  rw [← (List.perm_cons_erase hi).length_eq]
  exact hcap

/-- Copies that do not fail succeed. -/
theorem copiesOk (hkey : cfg.keyPolicy.NonFailing) (hval : cfg.valuePolicy.NonFailing) (i : ℕ)
    (key : K) (value : V) : CopiesOk cfg s i key value := by
  rw [CopiesOk, hkey.copyConstruct, hval.copyConstruct]
  exact ⟨rfl, rfl⟩

/-! ## One call -/

/-- What a call returns and leaves, next to the reference. -/
def Agrees (cfg : LruConfig w K V) (r : Reply V × LruCache K V) (r' : Reply V × List (K × V)) :
    Prop :=
  r.1 = r'.1 ∧ Reads cfg r.2 r'.2

/-- `find_entry` finds the pair that the reference looks up: promoting its entry reads as moving the
pair to the front. -/
theorem Reads.find (hlaw : cfg.hashEqPolicy.Lawful) (hpos : 0 < cfg.bucketCount)
    (hr : Reads cfg s m) (key : K) :
    (∃ i last, findEntry cfg s key = some ⟨some i, last⟩ ∧
      LruReference.lookup cfg.hashEqPolicy.equal m key = some (s.keys i, s.values i) ∧
      Reads cfg (s.promote i)
        ((s.keys i, s.values i) :: LruReference.without cfg.hashEqPolicy.equal m key)) ∨
    (∃ last, findEntry cfg s key = some ⟨none, last⟩ ∧
      LruReference.lookup cfg.hashEqPolicy.equal m key = none) := by
  obtain ⟨free, lru, chain, h, hcap, rfl⟩ := hr
  rcases h.find_lookup hlaw hpos key with
    ⟨i, hi, -, ⟨last, hfind⟩, hlookup, hwithout⟩ | ⟨-, ⟨last, hfind⟩, hlookup⟩
  · refine .inl ⟨i, last, hfind, hlookup, ?_⟩
    rw [hwithout]
    exact reads_promote hlaw h hcap hi
  · exact .inr ⟨last, hfind, hlookup⟩

/-- `get` of the cache and of the reference. -/
theorem agrees_get (hlaw : cfg.hashEqPolicy.Lawful) (hpos : 0 < cfg.bucketCount)
    (hval : cfg.valuePolicy.NonFailing) (hr : Reads cfg s m) (key : Option K) (out : Option V) :
    Agrees cfg (get cfg s key out)
      (LruReference.call cfg.hashEqPolicy.equal cfg.capacity m (.get key out)) := by
  cases key with
  | none => exact ⟨rfl, hr⟩
  | some key =>
    rcases hr.find hlaw hpos key with ⟨i, last, hfind, hlookup, hread⟩ | ⟨last, hfind, hlookup⟩
    · cases out with
      | none =>
        simp only [get, hfind, LruReference.call, hlookup]
        exact ⟨rfl, hread⟩
      | some dst =>
        simp only [get, hfind, LruReference.call, hlookup, hval.copyConstruct, ne_eq,
          not_true_eq_false, if_false]
        exact ⟨rfl, hread.of_copies _⟩
    · simp only [get, hfind, LruReference.call, hlookup]
      exact ⟨rfl, hr⟩

/-- `peek` of the cache and of the reference. -/
theorem agrees_peek (hlaw : cfg.hashEqPolicy.Lawful) (hpos : 0 < cfg.bucketCount)
    (hval : cfg.valuePolicy.NonFailing) (hr : Reads cfg s m) (key : Option K) (out : Option V) :
    Agrees cfg (peek cfg s key out)
      (LruReference.call cfg.hashEqPolicy.equal cfg.capacity m (.peek key out)) := by
  cases key with
  | none => exact ⟨rfl, hr⟩
  | some key =>
    rcases hr.find hlaw hpos key with ⟨i, last, hfind, hlookup, -⟩ | ⟨last, hfind, hlookup⟩
    · cases out with
      | none =>
        simp only [peek, hfind, LruReference.call, hlookup]
        exact ⟨rfl, hr⟩
      | some dst =>
        simp only [peek, hfind, LruReference.call, hlookup, hval.copyConstruct]
        exact ⟨rfl, hr.of_copies _⟩
    · simp only [peek, hfind, LruReference.call, hlookup]
      exact ⟨rfl, hr⟩

/-- `touch` of the cache and of the reference. -/
theorem agrees_touch (hlaw : cfg.hashEqPolicy.Lawful) (hpos : 0 < cfg.bucketCount)
    (hr : Reads cfg s m) (key : Option K) :
    Agrees cfg (touch cfg s key)
      (LruReference.call cfg.hashEqPolicy.equal cfg.capacity m (.touch key)) := by
  cases key with
  | none => exact ⟨rfl, hr⟩
  | some key =>
    rcases hr.find hlaw hpos key with ⟨i, last, hfind, hlookup, hread⟩ | ⟨last, hfind, hlookup⟩
    · simp only [touch, hfind, LruReference.call, hlookup]
      exact ⟨rfl, hread⟩
    · simp only [touch, hfind, LruReference.call, hlookup]
      exact ⟨rfl, hr⟩

/-- `contains` of the cache and of the reference. -/
theorem agrees_contains (hlaw : cfg.hashEqPolicy.Lawful) (hpos : 0 < cfg.bucketCount)
    (hr : Reads cfg s m) (key : Option K) :
    Agrees cfg (contains cfg s key, s)
      (LruReference.call cfg.hashEqPolicy.equal cfg.capacity m (.contains key)) := by
  cases key with
  | none => exact ⟨rfl, hr⟩
  | some key =>
    rcases hr.find hlaw hpos key with ⟨i, last, hfind, hlookup, -⟩ | ⟨last, hfind, hlookup⟩
    · simp only [contains, hfind, LruReference.call, hlookup]
      exact ⟨rfl, hr⟩
    · simp only [contains, hfind, LruReference.call, hlookup]
      exact ⟨rfl, hr⟩

/-- `put` of the cache and of the reference. -/
theorem agrees_put (hlaw : cfg.hashEqPolicy.Lawful) (hpos : 0 < cfg.bucketCount)
    (hcap₀ : 0 < cfg.capacity) (hkey : cfg.keyPolicy.NonFailing)
    (hval : cfg.valuePolicy.NonFailing) (hr : Reads cfg s m) (key : Option K) (value : Option V) :
    Agrees cfg (put cfg s key value)
      (LruReference.call cfg.hashEqPolicy.equal cfg.capacity m (.put key value)) := by
  cases key with
  | none => exact ⟨rfl, hr⟩
  | some key =>
    cases value with
    | none => exact ⟨rfl, hr⟩
    | some value =>
      obtain ⟨free, lru, chain, h, hcap, rfl⟩ := hr
      have hlen : (entries s lru).length = lru.length := List.length_map _
      rcases h.find_lookup hlaw hpos key with
        ⟨i, hi, hequal, ⟨last, hfind⟩, hlookup, hwithout⟩ | ⟨hnone, -, hlookup⟩
      · -- the key is stored: its value is overwritten and its entry promoted
        have hok : (cfg.valuePolicy.copyConstruct s.copies (s.values i) value).1 = .ok := by
          rw [hval.copyConstruct]
        obtain ⟨s', hput, hshape, hkeys, hvalues⟩ :=
          (put_stored hlaw h hval.faithful hi hfind).1 hok
        have hne : ∀ j ∈ lru.erase i, j ≠ i := fun j hj => ((h.lru_nodup.mem_erase_iff).mp hj).1
        have hrest : entries s' (lru.erase i) = entries s (lru.erase i) := by
          apply entries_congr
          · intro j _
            rw [hkeys]
          · intro j hj
            rw [hvalues]
            exact Function.update_of_ne (hne j hj) _ _
        have hfirst : (s'.keys i, s'.values i) = (s.keys i, value) := by
          rw [hkeys, hvalues, Function.update_self]
        rw [hput]
        simp only [LruReference.call, hlookup, hwithout]
        refine ⟨rfl, free, _, chain, hshape, ?_, ?_⟩
        · rw [← (List.perm_cons_erase hi).length_eq]
          exact hcap
        · show (s'.keys i, s'.values i) :: entries s' (lru.erase i) = _
          rw [hrest, hfirst]
      · cases free with
        | cons i free =>
          -- a free entry takes the new pair
          obtain ⟨s', chain', hput, hshape, hkeys, hvalues⟩ :=
            (put_new_free hlaw hpos hkey.faithful hval.faithful h hnone).1
              (copiesOk hkey hval i key value)
          have hi : i ∉ lru := by
            intro hmem
            exact (List.nodup_append.mp h.nodup).2.2 i List.mem_cons_self i hmem rfl
          rw [List.length_cons] at hcap
          have hroom : (entries s lru).length < cfg.capacity := by omega
          rw [hput]
          simp only [LruReference.call, hlookup, hroom, if_true]
          refine ⟨rfl, free, _, chain', hshape, by rw [List.length_cons]; omega, ?_⟩
          have hne : ∀ j ∈ lru, j ≠ i := by
            rintro j hj rfl
            exact hi hj
          have hrest : entries s' lru = entries s lru := by
            apply entries_congr
            · intro j hj
              rw [hkeys]
              exact Function.update_of_ne (hne j hj) _ _
            · intro j hj
              rw [hvalues]
              exact Function.update_of_ne (hne j hj) _ _
          show (s'.keys i, s'.values i) :: entries s' lru = _
          rw [hrest, hkeys, hvalues, Function.update_self, Function.update_self]
        | nil =>
          -- the cache is full: the least recent entry takes the new pair
          rw [List.length_nil, Nat.zero_add] at hcap
          have hne : lru ≠ [] := by
            rintro rfl
            simp at hcap
            omega
          obtain ⟨init, i, rfl⟩ : ∃ init i, lru = init ++ [i] :=
            ⟨lru.dropLast, lru.getLast hne, (List.dropLast_append_getLast hne).symm⟩
          have hfull : cfg.capacity ≤ s.size := by
            rw [h.size]
            exact hcap.ge
          obtain ⟨s', chain', hput, hshape, hkeys, hvalues⟩ :=
            (put_new_full hlaw hpos hkey.faithful hval.faithful h hfull hnone).1
              (copiesOk hkey hval i key value)
          have hi : i ∉ init := by
            have hnodup := h.lru_nodup
            rw [← List.concat_eq_append, List.nodup_concat] at hnodup
            exact hnodup.1
          have hroom : ¬ (entries s (init ++ [i])).length < cfg.capacity := by omega
          rw [hput]
          simp only [LruReference.call, hlookup, hroom, if_false]
          refine ⟨rfl, [], _, chain', hshape, by simpa using hcap, ?_⟩
          have hother : ∀ j ∈ init, j ≠ i := by
            rintro j hj rfl
            exact hi hj
          have hrest : entries s' init = entries s init := by
            apply entries_congr
            · intro j hj
              rw [hkeys]
              exact Function.update_of_ne (hother j hj) _ _
            · intro j hj
              rw [hvalues]
              exact Function.update_of_ne (hother j hj) _ _
          have hdrop : (entries s (init ++ [i])).dropLast = entries s init := by
            rw [entries, List.map_append, List.map_singleton, List.dropLast_concat]
            rfl
          rw [hdrop]
          show (s'.keys i, s'.values i) :: entries s' init = _
          rw [hrest, hkeys, hvalues, Function.update_self, Function.update_self]

/-- `remove` of the cache and of the reference. -/
theorem agrees_remove (hlaw : cfg.hashEqPolicy.Lawful) (hpos : 0 < cfg.bucketCount)
    (hr : Reads cfg s m) (key : Option K) :
    Agrees cfg (remove cfg s key)
      (LruReference.call cfg.hashEqPolicy.equal cfg.capacity m (.remove key)) := by
  cases key with
  | none => exact ⟨rfl, hr⟩
  | some key =>
    have hr' := hr
    obtain ⟨free, lru, chain, h, hcap, rfl⟩ := hr
    rcases h.find hlaw hpos key with
      ⟨i, hi, hequal, hbucket, as, bs, hchain, hfind⟩ | ⟨hnone, last, hfind⟩
    · obtain ⟨s', chain', hremove, hshape, hkeys, hvalues⟩ :=
        remove_stored hpos h hi hbucket hchain hfind
      rw [hremove]
      simp only [LruReference.call, h.lookup hlaw hi hequal, h.without hlaw hi hequal]
      refine ⟨rfl, _, _, chain', hshape, ?_, entries_congr hkeys hvalues⟩
      have hlen := (List.perm_cons_erase hi).length_eq
      rw [List.length_cons] at hlen ⊢
      omega
    · simp only [remove, hfind, LruReference.call, lookup_absent hnone]
      exact ⟨rfl, hr'⟩

/-- `clear` of the cache and of the reference. -/
theorem agrees_clear (hpos : 0 < cfg.bucketCount) (hr : Reads cfg s m) :
    Agrees cfg (clear cfg s) (LruReference.call cfg.hashEqPolicy.equal cfg.capacity m .clear) := by
  obtain ⟨free, lru, chain, h, hcap, rfl⟩ := hr
  obtain ⟨s', free', chain', hclear, hshape, hlen⟩ := clear_spec hpos h
  rw [hclear]
  exact ⟨rfl, free', [], chain', hshape, by simpa using hlen.trans hcap, rfl⟩

/-- **Every call** of the cache agrees with the reference. -/
theorem agrees_call (hlaw : cfg.hashEqPolicy.Lawful) (hpos : 0 < cfg.bucketCount)
    (hcap₀ : 0 < cfg.capacity) (hkey : cfg.keyPolicy.NonFailing)
    (hval : cfg.valuePolicy.NonFailing) (hr : Reads cfg s m) (c : Call K V) :
    Agrees cfg (call cfg s c) (LruReference.call cfg.hashEqPolicy.equal cfg.capacity m c) := by
  cases c with
  | get key out => exact agrees_get hlaw hpos hval hr key out
  | peek key out => exact agrees_peek hlaw hpos hval hr key out
  | touch key => exact agrees_touch hlaw hpos hr key
  | put key value => exact agrees_put hlaw hpos hcap₀ hkey hval hr key value
  | remove key => exact agrees_remove hlaw hpos hr key
  | contains key => exact agrees_contains hlaw hpos hr key
  | clear => exact agrees_clear hpos hr

/-! ## Whole runs -/

/-- The loop of `foreach_list` along a list of entries visits what they hold. -/
theorem foreachLoop_spec {σ : Type*} (visit : σ → K → V → Status × σ) {next : ℕ → Option ℕ}
    {p : Option ℕ} {xs : List ℕ} {rounds : ℕ} (acc : σ) (hseg : Seg next p xs none)
    (hlen : xs.length ≤ rounds) :
    foreachLoop visit s next rounds acc p =
      some (LruReference.visitAll visit (entries s xs) acc) := by
  induction xs generalizing p rounds acc with
  | nil =>
    obtain rfl : p = none := hseg
    simp [foreachLoop, entries, LruReference.visitAll]
  | cons x xs ih =>
    obtain ⟨rfl, hrest⟩ := hseg
    obtain ⟨rounds, rfl⟩ : ∃ r, rounds = r + 1 := ⟨rounds - 1, by simp at hlen; omega⟩
    have hlen' : xs.length ≤ rounds := by simpa using hlen
    show foreachLoop visit s next (rounds + 1) acc (some x) =
      some (LruReference.visitAll visit ((s.keys x, s.values x) :: entries s xs) acc)
    rw [foreachLoop, LruReference.visitAll]
    by_cases hst : (visit acc (s.keys x) (s.values x)).1 = .ok
    · simp only [hst, ne_eq, not_true_eq_false, if_false]
      exact ih _ hrest hlen'
    · simp only [ne_eq, hst, not_false_eq_true, if_true]

/-- What is read off the cache: its size, its distinct keys, and both traversals. -/
theorem Reads.observe (hr : Reads cfg s m) {σ : Type*} (visit : σ → K → V → Status × σ) (acc : σ) :
    s.size = m.length ∧ m.length ≤ cfg.capacity ∧
      (m.Pairwise fun a b => cfg.hashEqPolicy.equal a.1 b.1 = false) ∧
      foreachMru cfg visit s acc = some (LruReference.visitAll visit m acc) ∧
      foreachLru cfg visit s acc = some (LruReference.visitAll visit m.reverse acc) := by
  obtain ⟨free, lru, chain, h, hcap, rfl⟩ := hr
  have hlen : (entries s lru).length = lru.length := List.length_map _
  refine ⟨h.size.trans hlen.symm, by omega, List.pairwise_map.mpr h.distinct, ?_, ?_⟩
  · exact foreachLoop_spec visit acc h.recency.1 (by omega)
  · have hreverse : (entries s lru).reverse = entries s lru.reverse := List.map_reverse.symm
    rw [hreverse]
    exact foreachLoop_spec visit acc h.recency.2 (by rw [List.length_reverse]; omega)

/-- **The cache refines the reference list.** For every positive capacity and bucket count, every
hash with a compatible key equality and copies that do not fail, every sequence of calls on a
freshly initialised cache gives the replies of the reference; and the cache then has at most
`capacity` entries, with distinct keys, which `foreach_mru` visits in the order of the reference
list and `foreach_lru` in the reverse order. -/
theorem refines_reference (hlaw : cfg.hashEqPolicy.Lawful) (hcap : 0 < cfg.capacity)
    (hbuckets : 0 < cfg.bucketCount) (hkey : cfg.keyPolicy.NonFailing)
    (hval : cfg.valuePolicy.NonFailing) (memory : LruCache K V) (calls : List (Call K V))
    {σ : Type*} (visit : σ → K → V → Status × σ) (acc : σ) {m : List (K × V)}
    (hm : Mealy.final (LruReference.call cfg.hashEqPolicy.equal cfg.capacity) [] calls = m) :
    ∃ s₀ s, init cfg true memory = .ok s₀ ∧ Mealy.final (call cfg) s₀ calls = s ∧
      Mealy.outputs (call cfg) s₀ calls =
        Mealy.outputs (LruReference.call cfg.hashEqPolicy.equal cfg.capacity) [] calls ∧
      s.size = m.length ∧ m.length ≤ cfg.capacity ∧
      (m.Pairwise fun a b => cfg.hashEqPolicy.equal a.1 b.1 = false) ∧
      foreachMru cfg visit s acc = some (LruReference.visitAll visit m acc) ∧
      foreachLru cfg visit s acc = some (LruReference.visitAll visit m.reverse acc) := by
  obtain ⟨s₀, free, hinit, hshape, hfree⟩ := init_spec hcap hbuckets memory
  have hreads : Reads cfg s₀ [] := ⟨free, [], _, hshape, by simpa using hfree, rfl⟩
  obtain ⟨houtputs, hfinal⟩ := Mealy.simulation (Reads cfg)
    (fun s m c hr _ => agrees_call hlaw hbuckets hcap hkey hval hr c)
    (Mealy.everyCall_true s₀ calls) hreads
  rw [hm] at hfinal
  exact ⟨s₀, _, hinit, rfl, houtputs, hfinal.observe visit acc⟩

/-- A cache of numbers for numbers with two entries and three buckets, hashed by the identity. -/
def plainConfig : LruConfig 64 ℕ ℕ where
  keyPolicy := .bytewise ℕ
  valuePolicy := .bytewise ℕ
  hashEqPolicy := .ofDecEq (BitVec.ofNat 64)
  capacity := 2
  bucketCount := 3

/-- The visitor that collects what it is shown. -/
def collect (acc : List (ℕ × ℕ)) (key value : ℕ) : Status × List (ℕ × ℕ) :=
  (.ok, acc ++ [(key, value)])

/-- The used key survives the eviction. -/
theorem refines_reference_two :
    ∃ s₀ s, init plainConfig true blank = .ok s₀ ∧
      Mealy.final (call plainConfig) s₀
        [.put (some 1) (some 10), .put (some 2) (some 20), .get (some 1) (some 0),
          .put (some 3) (some 30), .contains (some 2)] = s ∧
      Mealy.outputs (call plainConfig) s₀
        [.put (some 1) (some 10), .put (some 2) (some 20), .get (some 1) (some 0),
          .put (some 3) (some 30), .contains (some 2)] =
        [.put .ok, .put .ok, .get .ok (some 10), .put .ok, .contains false] ∧
      foreachMru plainConfig collect s [] = some (.ok, [(3, 30), (1, 10)]) := by
  obtain ⟨s₀, s, hinit, hfinal, houtputs, -, -, -, hmru, -⟩ :=
    refines_reference (HashPolicy.lawful_ofDecEq _) (show 0 < plainConfig.capacity by decide)
      (by decide) (ElementPolicy.nonFailing_bytewise _) (ElementPolicy.nonFailing_bytewise _) blank
      [.put (some 1) (some 10), .put (some 2) (some 20), .get (some 1) (some 0),
        .put (some 3) (some 30), .contains (some 2)] collect [] rfl
  exact ⟨s₀, s, hinit, hfinal, houtputs.trans (by decide), hmru.trans (by decide)⟩

end LruCache

end Memkit
