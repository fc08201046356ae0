import Memkit.Caching.LruCacheShape

/-! # The operations of the LRU cache and its shape

What `put`, `remove` and `clear` do to a cache of a given shape, for every outcome of the element
copies: which shape follows, and which keys and values the live entries then have. -/

namespace Memkit

open LinkedChain

namespace LruCache

variable {w : ℕ} {K V : Type*} {cfg : LruConfig w K V} {s s' : LruCache K V}
  {free lru as bs : List ℕ} {chain : ℕ → List ℕ} {i : ℕ} {key : K} {value : V}

/-! ## Filling an entry -/

/-- Both copies of `prepare_entry` into entry `i` succeed. -/
def CopiesOk (cfg : LruConfig w K V) (s : LruCache K V) (i : ℕ) (key : K) (value : V) : Prop :=
  (cfg.keyPolicy.copyConstruct s.copies (s.keys i) key).1 = .ok ∧
    (cfg.valuePolicy.copyConstruct (s.copies + 1) (s.values i) value).1 = .ok

instance (cfg : LruConfig w K V) (s : LruCache K V) (i : ℕ) (key : K) (value : V) :
    Decidable (CopiesOk cfg s i key value) :=
  inferInstanceAs (Decidable (_ ∧ _))

/-- `s` with key and value of entry `i` overwritten. -/
def filled (s : LruCache K V) (i : ℕ) (key : K) (value : V) : LruCache K V :=
  { s with
    keys := Function.update s.keys i key
    values := Function.update s.values i value
    copies := s.copies + 2 }

/-- Two states agree but for what entry `i` holds and for the count of copies. -/
structure SameBut (i : ℕ) (s s' : LruCache K V) : Prop where
  recency : s'.recency = s.recency
  links : s'.links = s.links
  size : s'.size = s.size
  keys : ∀ j, j ≠ i → s'.keys j = s.keys j
  values : ∀ j, j ≠ i → s'.values j = s.values j

theorem sameBut_filled : SameBut i s (filled s i key value) :=
  ⟨rfl, rfl, rfl, fun _ hj => Function.update_of_ne hj _ _, fun _ hj => Function.update_of_ne hj _ _⟩

/-- What entry `i` holds does not matter to the shape while it is not live. -/
theorem Shape.sameBut (h : Shape cfg s free lru chain) (hsame : SameBut i s s') (hi : i ∉ lru) :
    Shape cfg s' free lru chain := by
  refine h.congr hsame.recency hsame.links hsame.size ?_
  intro j hj
  apply hsame.keys
  rintro rfl
  exact hi hj

/-- The lists stay the same whatever an entry holds. -/
theorem Threaded.sameBut (h : Threaded cfg s free lru chain) (hsame : SameBut i s s') :
    Threaded cfg s' free lru chain :=
  h.congr hsame.recency hsame.links hsame.size

/-- Copies that succeed fill the entry. -/
theorem fillEntry_ok (hkey : cfg.keyPolicy.Faithful) (hval : cfg.valuePolicy.Faithful)
    (hok : CopiesOk cfg s i key value) (fromFree : Bool) :
    fillEntry cfg s i fromFree key value = (.ok, filled s i key value) := by
  obtain ⟨hkeySt, hvalueSt⟩ := hok
  have hnewKey := hkey _ _ _ hkeySt
  have hnewValue := hval _ _ _ hvalueSt
  unfold ElementPolicy.copyConstruct at hkeySt hvalueSt
  simp [fillEntry, ElementPolicy.copyConstruct, hkeySt, hvalueSt, hnewKey, hnewValue, filled]

/-- `s` after the key copy into entry `i`, whatever its status. -/
def keyCopied (cfg : LruConfig w K V) (s : LruCache K V) (i : ℕ) (key : K) : LruCache K V :=
  { s with
    keys := Function.update s.keys i (cfg.keyPolicy.copyConstruct s.copies (s.keys i) key).2
    copies := s.copies + 1 }

/-- `s` after the value copy into entry `i`, whatever its status. -/
def valueCopied (cfg : LruConfig w K V) (s : LruCache K V) (i : ℕ) (value : V) : LruCache K V :=
  { s with
    values :=
      Function.update s.values i (cfg.valuePolicy.copyConstruct s.copies (s.values i) value).2
    copies := s.copies + 1 }

/-- Copies that succeed fill the entry, with whatever they make of key and value. -/
theorem fillEntry_copied (hok : CopiesOk cfg s i key value) (fromFree : Bool) :
    ∃ s', SameBut i s s' ∧ fillEntry cfg s i fromFree key value = (.ok, s') := by
  obtain ⟨hkeySt, hvalueSt⟩ := hok
  refine ⟨valueCopied cfg (keyCopied cfg s i key) i value, ⟨rfl, rfl, rfl, ?_, ?_⟩, ?_⟩
  · exact fun j hj => Function.update_of_ne hj _ _
  · exact fun j hj => Function.update_of_ne hj _ _
  · simp only [fillEntry, hkeySt, hvalueSt, ne_eq, not_true_eq_false, if_false]
    rfl

/-- `s` with the key of entry `i` destroyed. -/
def keyDestroyed (cfg : LruConfig w K V) (s : LruCache K V) (i : ℕ) : LruCache K V :=
  { s with keys := Function.update s.keys i (cfg.keyPolicy.destroy (s.keys i)) }

/-- A copy that fails leaves the entry with some contents, and puts it back on the free list if it
came from there. -/
theorem fillEntry_fail (hfail : ¬ CopiesOk cfg s i key value) (fromFree : Bool) :
    ∃ st s', st ≠ .ok ∧ SameBut i s s' ∧
      fillEntry cfg s i fromFree key value = (st, if fromFree then releaseEntry s' i else s') := by
  by_cases hkeySt : (cfg.keyPolicy.copyConstruct s.copies (s.keys i) key).1 = .ok
  · have hvalueSt : (cfg.valuePolicy.copyConstruct (s.copies + 1) (s.values i) value).1 ≠ .ok :=
      fun hval => hfail ⟨hkeySt, hval⟩
    refine ⟨_, keyDestroyed cfg (valueCopied cfg (keyCopied cfg s i key) i value) i, hvalueSt,
      ⟨rfl, rfl, rfl, ?_, ?_⟩, ?_⟩
    · intro j hj
      simp [keyDestroyed, valueCopied, keyCopied, hj]
    · intro j hj
      simp [keyDestroyed, valueCopied, keyCopied, hj]
    · simp only [fillEntry, hkeySt, ne_eq, not_true_eq_false, if_false, hvalueSt,
        not_false_eq_true, if_true]
      rfl
  · refine ⟨_, keyCopied cfg s i key, hkeySt, ⟨rfl, rfl, rfl, ?_, fun _ _ => rfl⟩, ?_⟩
    · intro j hj
      simp [keyCopied, hj]
    · simp only [fillEntry, ne_eq, hkeySt, not_false_eq_true, if_true]
      rfl

/-! ## `put` of a new key -/

/-- The cache after a new entry is filled and linked. -/
def linked (cfg : LruConfig w K V) (s : LruCache K V) (i : ℕ) (key : K) : LruCache K V :=
  { s with
    links := s.links.hashLink (bucketOf cfg key) i
    recency := s.recency.lruPushFront i
    size := s.size + 1 }

/-- Filling an unused entry with a new key and linking it. -/
theorem Shape.linked_filled (hlaw : cfg.hashEqPolicy.Lawful) (hpos : 0 < cfg.bucketCount)
    (h : Shape cfg s free lru chain) (hi : i ∉ free ++ lru) (hcap : i < cfg.capacity)
    (hnew : ∀ j ∈ lru, cfg.hashEqPolicy.equal (s.keys j) key = false) (value : V) :
    ∃ chain', Shape cfg (linked cfg (filled s i key value) i key) free (i :: lru) chain' := by
  have hlive : i ∉ lru := fun hmem => hi (List.mem_append_right free hmem)
  have hfilled : Shape cfg (filled s i key value) free lru chain := h.sameBut sameBut_filled hlive
  have hkey : (filled s i key value).keys i = key := Function.update_self ..
  have hdiff : ∀ j ∈ lru, cfg.hashEqPolicy.equal ((filled s i key value).keys j)
      ((filled s i key value).keys i) = false := by
    intro j hj
    have hne : j ≠ i := by
      rintro rfl
      exact hlive hj
    rw [hkey, sameBut_filled.keys j hne]
    exact hnew j hj
  have hattach := hfilled.attach hlaw hpos hi hcap hdiff
  rw [hkey] at hattach
  exact ⟨_, hattach⟩

/-- **`put`** of a new key while some entry is free. -/
theorem put_new_free (hlaw : cfg.hashEqPolicy.Lawful) (hpos : 0 < cfg.bucketCount)
    (hkey : cfg.keyPolicy.Faithful) (hval : cfg.valuePolicy.Faithful)
    (h : Shape cfg s (i :: free) lru chain)
    (hnew : ∀ j ∈ lru, cfg.hashEqPolicy.equal (s.keys j) key = false) :
    (CopiesOk cfg s i key value → ∃ s' chain',
      put cfg s (some key) (some value) = (.put .ok, s') ∧ Shape cfg s' free (i :: lru) chain' ∧
        s'.keys = Function.update s.keys i key ∧ s'.values = Function.update s.values i value) ∧
    (¬ CopiesOk cfg s i key value → ∃ st s', st ≠ .ok ∧
      put cfg s (some key) (some value) = (.put st, s') ∧
        Shape cfg s' (i :: free) lru chain ∧ (∀ j ∈ lru, s'.keys j = s.keys j) ∧
        ∀ j ∈ lru, s'.values j = s.values j) := by
  obtain ⟨hentry, hacquired, hi, hcap⟩ := h.acquire
  have hlive : i ∉ lru := fun hmem => hi (List.mem_append_right free hmem)
  obtain ⟨last, hfind⟩ := h.find_absent hlaw hpos hnew
  obtain ⟨links, hacquire⟩ : ∃ links, s.links.acquire = (some i, links) :=
    ⟨s.links.acquire.2, by rw [← hentry]⟩
  rw [hacquire] at hacquired
  constructor
  · intro hok
    obtain ⟨chain', hshape⟩ := hacquired.linked_filled hlaw hpos hi hcap hnew value
    have hok' : CopiesOk cfg { s with links := links } i key value := hok
    refine ⟨_, chain', ?_, hshape, rfl, rfl⟩
    simp only [put, hfind, prepareEntry, hacquire, fillEntry_ok hkey hval hok' true, ne_eq,
      not_true_eq_false, if_false]
    rfl
  · intro hfail
    have hfail' : ¬ CopiesOk cfg { s with links := links } i key value := hfail
    obtain ⟨st, s', hst, hsame, hfill⟩ := fillEntry_fail hfail' true
    have hshape := (hacquired.sameBut hsame hlive).release hi hcap
    refine ⟨st, releaseEntry s' i, hst, ?_, hshape, ?_, ?_⟩
    · simp only [put, hfind, prepareEntry, hacquire, hfill, if_true, ne_eq, hst,
        not_false_eq_true]
    · intro j hj
      exact hsame.keys j fun heq => hlive (heq ▸ hj)
    · intro j hj
      exact hsame.values j fun heq => hlive (heq ▸ hj)

/-- **`put`** of a new key without a free entry into a cache that is not full: lost entries left no
room. -/
theorem put_noRoom {last : Option ℕ} (hacquire : s.links.acquire = (none, s.links))
    (hroom : ¬ cfg.capacity ≤ s.size) (hfind : findEntry cfg s key = some ⟨none, last⟩) :
    put cfg s (some key) (some value) = (.put .full, s) := by
  have hprepare : prepareEntry cfg s key value = some (.full, 0, s) := by
    unfold prepareEntry
    rw [hacquire]
    cases s.recency.tail with
    | none => rfl
    | some slot => simp [Nat.lt_of_not_le hroom]
  simp only [put, hfind, hprepare]
  rfl

/-- Evicting the least recent entry takes it off every list. -/
theorem Shape.evict (hlaw : cfg.hashEqPolicy.Lawful) (hpos : 0 < cfg.bucketCount)
    (h : Shape cfg s free lru chain) (hi : i ∈ lru) :
    ∃ prev chain', findEntry cfg s (s.keys i) = some ⟨some i, prev⟩ ∧
      Shape cfg (evict cfg s i prev) free (lru.erase i) chain' := by
  rcases h.find hlaw hpos (s.keys i) with ⟨j, hj, hequal, -, as, bs, hchain, hfind⟩ | ⟨hnone, -⟩
  · obtain rfl : j = i := h.eq_of_equal hlaw hj hi hequal
    have hdetach := h.detach hpos hchain
    refine ⟨_, _, hfind, hdetach.congr rfl rfl rfl ?_⟩
    intro k hk
    have hne : k ≠ j := ((h.lru_nodup.mem_erase_iff).mp hk).1
    exact Function.update_of_ne hne _ _
  · have hself := hnone i hi
    rw [hlaw.refl] at hself
    cases hself

/-- **`put`** of a new key into a full cache: the least recent entry `i` is evicted, and its slot
gets the new pair, or is left on no list when a copy fails. -/
theorem put_new_full (hlaw : cfg.hashEqPolicy.Lawful) (hpos : 0 < cfg.bucketCount)
    (hkey : cfg.keyPolicy.Faithful) (hval : cfg.valuePolicy.Faithful) {init : List ℕ}
    (h : Shape cfg s [] (init ++ [i]) chain) (hfull : cfg.capacity ≤ s.size)
    (hnew : ∀ j ∈ init ++ [i], cfg.hashEqPolicy.equal (s.keys j) key = false) :
    (CopiesOk cfg (destroyEntry cfg s i) i key value → ∃ s' chain',
      put cfg s (some key) (some value) = (.put .ok, s') ∧ Shape cfg s' [] (i :: init) chain' ∧
        s'.keys = Function.update s.keys i key ∧ s'.values = Function.update s.values i value) ∧
    (¬ CopiesOk cfg (destroyEntry cfg s i) i key value → ∃ st s' chain', st ≠ .ok ∧
      put cfg s (some key) (some value) = (.put st, s') ∧ Shape cfg s' [] init chain' ∧
        (∀ j ∈ init, s'.keys j = s.keys j) ∧ ∀ j ∈ init, s'.values j = s.values j) := by
  have hmem : i ∈ init ++ [i] := by simp
  obtain ⟨hi, hinit⟩ : i ∉ init ∧ init.Nodup := by
    have hnodup := h.lru_nodup
    rw [← List.concat_eq_append, List.nodup_concat] at hnodup
    exact hnodup
  have herase : (init ++ [i]).erase i = init := by
    rw [List.erase_append_right _ hi]
    simp
  have hcap : i < cfg.capacity := h.bound i (by simp)
  -- the victim is the tail of the recency list; its chain is searched for the node before it
  obtain ⟨prev, chain', hvictim, hevict⟩ := h.evict hlaw hpos hmem
  rw [herase] at hevict
  have htail : s.recency.tail = some i := by
    rw [h.recency.tail_eq, List.getLast?_concat]
  obtain ⟨last, hfind⟩ := h.find_absent hlaw hpos hnew
  -- the eviction destroys the pair of `i` and no other
  have hkeys : ∀ j ∈ init, (evict cfg s i prev).keys j = s.keys j := by
    intro j hj
    apply Function.update_of_ne
    rintro rfl
    exact hi hj
  have hvalues : ∀ j ∈ init, (evict cfg s i prev).values j = s.values j := by
    intro j hj
    apply Function.update_of_ne
    rintro rfl
    exact hi hj
  constructor
  · intro hok
    have hok' : CopiesOk cfg (evict cfg s i prev) i key value := hok
    have hdiff : ∀ j ∈ init,
        cfg.hashEqPolicy.equal ((evict cfg s i prev).keys j) key = false := by
      intro j hj
      rw [hkeys j hj]
      exact hnew j (List.mem_append_left _ hj)
    -- the slot of the victim is filled and linked in at both ends
    obtain ⟨chain'', hshape⟩ := hevict.linked_filled hlaw hpos hi hcap hdiff value
    refine ⟨_, chain'', ?_, hshape, ?_, ?_⟩
    · simp only [put, hfind, prepareEntry, h.links.acquire_nil, htail, Nat.not_lt.mpr hfull,
        if_false, hvictim, fillEntry_ok hkey hval hok' false, ne_eq, not_true_eq_false]
      rfl
    · exact Function.update_idem ..
    · exact Function.update_idem ..
  · intro hfail
    have hfail' : ¬ CopiesOk cfg (evict cfg s i prev) i key value := hfail
    -- the failing copy leaves the slot on neither list
    obtain ⟨st, s', hst, hsame, hfill⟩ := fillEntry_fail hfail' false
    refine ⟨st, s', chain', hst, ?_, hevict.sameBut hsame hi, ?_, ?_⟩
    · simp only [put, hfind, prepareEntry, h.links.acquire_nil, htail, Nat.not_lt.mpr hfull,
        if_false, hvictim, hfill, Bool.false_eq_true, ne_eq, hst, not_false_eq_true, if_true]
    · intro j hj
      exact (hsame.keys j fun heq => hi (heq ▸ hj)).trans (hkeys j hj)
    · intro j hj
      exact (hsame.values j fun heq => hi (heq ▸ hj)).trans (hvalues j hj)

/-! ## The calls that look an entry up -/

/-- `s'` is `s` after some copies to the caller, with the entry found for a key promoted or not. -/
def Consulted (cfg : LruConfig w K V) (s s' : LruCache K V) : Prop :=
  ∃ copies, s' = { s with copies := copies } ∨ ∃ key i prev,
    findEntry cfg s key = some ⟨some i, prev⟩ ∧ s' = { s with copies := copies }.promote i

theorem Consulted.refl (cfg : LruConfig w K V) (s : LruCache K V) : Consulted cfg s s :=
  ⟨s.copies, .inl rfl⟩

theorem get_consulted (cfg : LruConfig w K V) (s : LruCache K V) (key : Option K)
    (out : Option V) : Consulted cfg s (get cfg s key out).2 := by
  cases key with
  | none => exact .refl cfg s
  | some key =>
    simp only [get]
    rcases hfind : findEntry cfg s key with _ | ⟨_ | i, prev⟩
    · exact .refl cfg s
    · exact .refl cfg s
    · cases out with
      | none => exact ⟨s.copies, .inr ⟨key, i, prev, hfind, rfl⟩⟩
      | some dst =>
        dsimp only
        by_cases hcopy : (cfg.valuePolicy.copyConstruct s.copies dst (s.values i)).1 = .ok
        · rw [if_neg (not_not.mpr hcopy)]
          exact ⟨s.copies + 1, .inr ⟨key, i, prev, hfind, rfl⟩⟩
        · rw [if_pos hcopy]
          exact ⟨s.copies + 1, .inl rfl⟩

theorem touch_consulted (cfg : LruConfig w K V) (s : LruCache K V) (key : Option K) :
    Consulted cfg s (touch cfg s key).2 := by
  cases key with
  | none => exact .refl cfg s
  | some key =>
    simp only [touch]
    rcases hfind : findEntry cfg s key with _ | ⟨_ | i, prev⟩
    · exact .refl cfg s
    · exact .refl cfg s
    · exact ⟨s.copies, .inr ⟨key, i, prev, hfind, rfl⟩⟩

/-- `peek` promotes nothing. -/
theorem peek_copies (cfg : LruConfig w K V) (s : LruCache K V) (key : Option K) (out : Option V) :
    ∃ copies, (peek cfg s key out).2 = { s with copies := copies } := by
  cases key with
  | none => exact ⟨s.copies, rfl⟩
  | some key =>
    simp only [peek]
    rcases findEntry cfg s key with _ | ⟨_ | i, prev⟩
    · exact ⟨s.copies, rfl⟩
    · exact ⟨s.copies, rfl⟩
    · cases out with
      | none => exact ⟨s.copies, rfl⟩
      | some dst => exact ⟨s.copies + 1, rfl⟩

theorem peek_consulted (cfg : LruConfig w K V) (s : LruCache K V) (key : Option K)
    (out : Option V) : Consulted cfg s (peek cfg s key out).2 := by
  obtain ⟨copies, hpeek⟩ := peek_copies cfg s key out
  exact ⟨copies, .inl hpeek⟩

/-- Looking entries up reorders the recency list at most. -/
theorem Threaded.consulted (hpos : 0 < cfg.bucketCount) (h : Threaded cfg s free lru chain)
    (hconsulted : Consulted cfg s s') : ∃ lru', Threaded cfg s' free lru' chain ∧ lru'.Perm lru := by
  obtain ⟨copies, rfl | ⟨key, i, prev, hfind, rfl⟩⟩ := hconsulted
  · exact ⟨lru, h.congr rfl rfl rfl, .refl lru⟩
  · have hi := h.mem_of_find hpos hfind
    have hcopied : Threaded cfg { s with copies := copies } free lru chain := h.congr rfl rfl rfl
    exact ⟨_, hcopied.promote hi, (List.perm_cons_erase hi).symm⟩

theorem Shape.consulted (hlaw : cfg.hashEqPolicy.Lawful) (hpos : 0 < cfg.bucketCount)
    (h : Shape cfg s free lru chain) (hconsulted : Consulted cfg s s') :
    ∃ lru', Shape cfg s' free lru' chain ∧ lru'.Perm lru := by
  obtain ⟨copies, rfl | ⟨key, i, prev, hfind, rfl⟩⟩ := hconsulted
  · exact ⟨lru, h.congr rfl rfl rfl fun _ _ => rfl, .refl lru⟩
  · have hi := (h.threaded hpos).mem_of_find hpos hfind
    have hcopied : Shape cfg { s with copies := copies } free lru chain :=
      h.congr rfl rfl rfl fun _ _ => rfl
    exact ⟨_, hcopied.promote hlaw hi, (List.perm_cons_erase hi).symm⟩

/-! ## The other calls on a live entry -/

/-- **`put`** of a stored key overwrites its value and promotes it, or fails. -/
theorem put_stored (hlaw : cfg.hashEqPolicy.Lawful) (h : Shape cfg s free lru chain) {last : Option ℕ}
    (hval : cfg.valuePolicy.Faithful) (hi : i ∈ lru)
    (hfind : findEntry cfg s key = some ⟨some i, last⟩) :
    ((cfg.valuePolicy.copyConstruct s.copies (s.values i) value).1 = .ok → ∃ s',
      put cfg s (some key) (some value) = (.put .ok, s') ∧
        Shape cfg s' free (i :: lru.erase i) chain ∧ s'.keys = s.keys ∧
        s'.values = Function.update s.values i value) ∧
    ((cfg.valuePolicy.copyConstruct s.copies (s.values i) value).1 ≠ .ok → ∃ st s', st ≠ .ok ∧
      put cfg s (some key) (some value) = (.put st, s') ∧ Shape cfg s' free lru chain) := by
  have hcopied : Shape cfg (valueCopied cfg s i value) free lru chain :=
    h.congr rfl rfl rfl fun _ _ => rfl
  constructor
  · intro hok
    have hnew : (cfg.valuePolicy.copyConstruct s.copies (s.values i) value).2 = value :=
      hval _ _ _ hok
    refine ⟨(valueCopied cfg s i value).promote i, ?_, hcopied.promote hlaw hi, rfl, ?_⟩
    · simp only [put, hfind, hok, ne_eq, not_true_eq_false, if_false]
      rfl
    · show Function.update s.values i _ = _
      rw [hnew]
  · intro hfail
    refine ⟨_, valueCopied cfg s i value, hfail, ?_, hcopied⟩
    simp only [put, hfind, ne_eq, hfail, not_false_eq_true, if_true]
    rfl

/-- The cache after the entry `i` of `key` is removed. -/
def removed (cfg : LruConfig w K V) (s : LruCache K V) (key : K) (i : ℕ) (prev : Option ℕ) :
    LruCache K V :=
  { releaseEntry
      { destroyEntry cfg s i with
        recency := s.recency.lruUnlink i
        links := s.links.hashUnlink (bucketOf cfg key) i prev } i with
    size := s.size - 1 }

/-- **`remove`** of a stored key: its entry is free afterwards. -/
theorem remove_stored (hpos : 0 < cfg.bucketCount) (h : Shape cfg s free lru chain) (hi : i ∈ lru)
    (hbucket : bucketOf cfg (s.keys i) = bucketOf cfg key)
    (hchain : chain (bucketOf cfg key) = as ++ i :: bs)
    (hfind : findEntry cfg s key = some ⟨some i, as.getLast?⟩) :
    ∃ s' chain', remove cfg s (some key) = (.remove .ok, s') ∧
      Shape cfg s' (i :: free) (lru.erase i) chain' ∧
      (∀ j ∈ lru.erase i, s'.keys j = s.keys j) ∧ ∀ j ∈ lru.erase i, s'.values j = s.values j := by
  rw [← hbucket] at hchain
  have hdetach := h.detach hpos hchain
  have hne : ∀ j ∈ lru.erase i, j ≠ i := fun j hj => ((h.lru_nodup.mem_erase_iff).mp hj).1
  have hout : i ∉ free ++ lru.erase i := by
    intro hmem
    rcases List.mem_append.mp hmem with hmem | hmem
    · exact (List.nodup_append.mp h.nodup).2.2 i hmem i hi rfl
    · exact hne i hmem rfl
  have hrelease := hdetach.release hout (h.bound i (List.mem_append_right _ hi))
  rw [hbucket] at hrelease
  have hkeys : ∀ j ∈ lru.erase i, (removed cfg s key i as.getLast?).keys j = s.keys j :=
    fun j hj => Function.update_of_ne (hne j hj) _ _
  refine ⟨removed cfg s key i as.getLast?, _, ?_, hrelease.congr rfl rfl rfl hkeys, hkeys,
    fun j hj => Function.update_of_ne (hne j hj) _ _⟩
  simp only [remove, hfind]
  rfl

/-! ## `clear` -/

/-- The links with the bucket `b` pointing at `p`: what the inner loop of `clear` has still to walk,
as if the bucket had moved along with it. -/
def aimed (h : HashLinks) (b : ℕ) (p : Option ℕ) : HashLinks :=
  { h with buckets := Function.update h.buckets b p }

/-- A bucket that is aimed at a chain is aimed at its first entry. -/
theorem walks_aimed_head {h : HashLinks} {n b : ℕ} {p : Option ℕ} {xs : List ℕ} (hb : b < n)
    (hw : (aimed h b p).Walks n free (Function.update chain b xs)) : p = xs.head? := by
  have hseg := hw.chains b hb
  rw [Function.update_self] at hseg
  have hp : (aimed h b p).buckets b = p := Function.update_self ..
  rw [← hp, hseg.start_eq, Option.or_none]

/-- A bucket may be aimed at its own chain. -/
theorem walks_aimed_self {h : HashLinks} {n : ℕ} (hw : h.Walks n free chain) (b : ℕ) :
    (aimed h b (h.buckets b)).Walks n free (Function.update chain b (chain b)) := by
  rw [aimed, Function.update_eq_self, Function.update_eq_self]
  exact hw

/-- One round of the inner loop of `clear`: the first entry of the rest of the chain goes to the
free list. -/
theorem walks_clearChain_step {h : HashLinks} {n b x : ℕ} {xs : List ℕ} (hb : b < n)
    (hw : (aimed h b (some x)).Walks n free (Function.update chain b (x :: xs))) :
    (aimed (h.release x) b (h.hashNext x)).Walks n (x :: free) (Function.update chain b xs) := by
  have hseg := hw.chains b hb
  have hnodup := hw.chain_nodup b hb
  have hx : x ∈ Function.update chain b (x :: xs) b := by simp
  rw [Function.update_self] at hseg hnodup
  -- drop `x` from the chain, then push it on the free list
  have hdrop : (aimed h b (h.hashNext x)).Walks n free (Function.update chain b xs) := by
    have hshrink : (aimed h b (h.hashNext x)).Walks n free
        (Function.update (Function.update chain b (x :: xs)) b xs) := by
      refine hw.shrink ?_ ?_ ?_ ?_
      · exact hw.free_walk
      · show Seg h.hashNext (Function.update h.buckets b _ b) xs none
        rw [Function.update_self]
        exact hseg.2
      · intro c hc hcb
        have hother := hw.chains c hc
        simpa [aimed, hcb] using hother
      · intro _
        rw [Function.update_self]
        exact List.sublist_cons_self x xs
    rwa [Function.update_idem] at hshrink
  refine hdrop.release (hw.free_apart b hb x hx) ?_
  intro c hc
  by_cases hcb : c = b
  · subst hcb
    rw [Function.update_self]
    exact (List.nodup_cons.mp hnodup).1
  · rw [Function.update_of_ne hcb]
    have hapart := hw.apart b hb c hc (Ne.symm hcb) x hx
    rwa [Function.update_of_ne hcb] at hapart

/-- The inner loop of `clear` moves a whole chain to the free list. -/
theorem clearChain_spec {b : ℕ} (hb : b < cfg.bucketCount) (xs : List ℕ) :
    ∀ (rounds : ℕ) (s : LruCache K V) (p : Option ℕ) (free : List ℕ), xs.length ≤ rounds →
      (aimed s.links b p).Walks cfg.bucketCount free (Function.update chain b xs) →
      ∃ s', clearChain cfg rounds s p = some s' ∧
        (aimed s'.links b none).Walks cfg.bucketCount (xs.reverse ++ free)
          (Function.update chain b []) := by
  induction xs with
  | nil =>
    intro rounds s p free _ hw
    obtain rfl : p = none := walks_aimed_head hb hw
    exact ⟨s, by simp [clearChain], hw⟩
  | cons x xs ih =>
    intro rounds s p free hlen hw
    obtain rfl : p = some x := walks_aimed_head hb hw
    obtain ⟨rounds, rfl⟩ : ∃ r, rounds = r + 1 := ⟨rounds - 1, by simp at hlen; omega⟩
    obtain ⟨s', hclear, hw'⟩ := ih rounds (releaseEntry (destroyEntry cfg s x) x)
      (s.links.hashNext x) (x :: free) (by simpa using hlen) (walks_clearChain_step hb hw)
    refine ⟨s', hclear, ?_⟩
    rw [List.reverse_cons, List.append_assoc]
    exact hw'

/-- The outer loop of `clear` empties the chains of its buckets. -/
theorem clearBuckets_spec (is : List ℕ) :
    ∀ (s : LruCache K V) (free : List ℕ) (chain : ℕ → List ℕ), is.Nodup →
      (∀ b ∈ is, b < cfg.bucketCount ∧ (chain b).length ≤ cfg.capacity) →
      s.links.Walks cfg.bucketCount free chain →
      ∃ s' free', clearBuckets cfg is s = some s' ∧
        s'.links.Walks cfg.bucketCount free' (fun c => if c ∈ is then [] else chain c) ∧
        ∀ i, i ∈ free' ↔ i ∈ free ∨ ∃ b ∈ is, i ∈ chain b := by
  induction is with
  | nil =>
    intro s free chain _ _ hw
    exact ⟨s, free, rfl, by simpa using hw, by simp⟩
  | cons b is ih =>
    intro s free chain hnodup hbound hw
    obtain ⟨hb, hlen⟩ := hbound b List.mem_cons_self
    obtain ⟨hnot, hnodup⟩ := List.nodup_cons.mp hnodup
    have haimed := walks_aimed_self hw b
    -- the chain of the first bucket goes to the free list, and the bucket is then empty
    obtain ⟨s₁, hclear, hw₁⟩ := clearChain_spec hb (chain b) cfg.capacity s _ free hlen haimed
    have hbound' : ∀ c ∈ is, c < cfg.bucketCount ∧
        (Function.update chain b [] c).length ≤ cfg.capacity := by
      intro c hc
      have hcb : c ≠ b := by
        rintro rfl
        exact hnot hc
      rw [Function.update_of_ne hcb]
      exact hbound c (List.mem_cons_of_mem b hc)
    obtain ⟨s', free', hrest, hw', hmem⟩ :=
      ih { s₁ with links := aimed s₁.links b none } _ _ hnodup hbound' hw₁
    refine ⟨s', free', ?_, ?_, ?_⟩
    · simp only [clearBuckets, hclear]
      exact hrest
    · -- emptying the first bucket and then the rest empties all of them
      have hchain : (fun c => if c ∈ is then [] else Function.update chain b [] c) =
          fun c => if c ∈ b :: is then [] else chain c := by
        funext c
        by_cases hcb : c = b
        · subst hcb
          simp
        · simp [hcb]
      rwa [hchain] at hw'
    · intro i
      rw [hmem i]
      have hsame : ∀ c ∈ is, Function.update chain b [] c = chain c := by
        intro c hc
        apply Function.update_of_ne
        rintro rfl
        exact hnot hc
      constructor
      · rintro (hi | ⟨c, hc, hi⟩)
        · rcases List.mem_append.mp hi with hi | hi
          · exact .inr ⟨b, List.mem_cons_self, List.mem_reverse.mp hi⟩
          · exact .inl hi
        · rw [hsame c hc] at hi
          exact .inr ⟨c, List.mem_cons_of_mem b hc, hi⟩
      · rintro (hi | ⟨c, hc, hi⟩)
        · exact .inl (List.mem_append_right _ hi)
        · rcases List.mem_cons.mp hc with rfl | hc
          · exact .inl (List.mem_append_left _ (List.mem_reverse.mpr hi))
          · exact .inr ⟨c, hc, by rwa [hsame c hc]⟩

/-- **`clear`** returns and moves every live entry to the free list. -/
theorem Threaded.clear (h : Threaded cfg s free lru chain) :
    ∃ s' free' chain', LruCache.clear cfg s = (.clear, s') ∧ Threaded cfg s' free' [] chain' ∧
      free'.length = free.length + lru.length := by
  by_cases hsize : s.size = 0
  · obtain rfl : lru = [] := by
      rw [← List.length_eq_zero_iff, ← h.size]
      exact hsize
    exact ⟨s, free, chain, by simp [LruCache.clear, hsize], h, rfl⟩
  · have hbound : ∀ b ∈ List.range cfg.bucketCount,
        b < cfg.bucketCount ∧ (chain b).length ≤ cfg.capacity :=
      fun b hb => ⟨List.mem_range.mp hb, h.chain_length_le (List.mem_range.mp hb)⟩
    obtain ⟨s', free', hclear, hw, hmem⟩ :=
      clearBuckets_spec (List.range cfg.bucketCount) s free chain List.nodup_range hbound h.links
    have hperm : free'.Perm (free ++ lru) := by
      rw [List.perm_ext_iff_of_nodup hw.free_nodup h.nodup]
      intro i
      rw [hmem i, List.mem_append]
      constructor
      · rintro (hi | ⟨b, hb, hi⟩)
        · exact .inl hi
        · exact .inr (h.live b (List.mem_range.mp hb) i hi)
      · rintro (hi | hi)
        · exact .inl hi
        · obtain ⟨b, hb, hib⟩ := h.chained i hi
          exact .inr ⟨b, List.mem_range.mpr hb, hib⟩
    refine ⟨{ s' with recency := { s'.recency with head := none, tail := none }, size := 0 }, free',
      _, ?_, ⟨⟨rfl, rfl⟩, hw, ?_, nofun, ?_, ?_, rfl⟩, ?_⟩
    · simp only [LruCache.clear, hsize, if_false, hclear]
    · intro b hb i hi
      simp [hb] at hi
    · rw [List.append_nil]
      exact hw.free_nodup
    · intro i hi
      rw [List.append_nil] at hi
      exact h.bound i (hperm.mem_iff.mp hi)
    · rw [hperm.length_eq, List.length_append]

/-- Without live entries there are no keys to speak of. -/
theorem Threaded.shape_nil (h : Threaded cfg s free [] chain) : Shape cfg s free [] chain :=
  ⟨h.recency, h.links, fun b hb i => iff_of_false (fun hi => List.not_mem_nil (h.live b hb i hi))
    fun hi => List.not_mem_nil hi.1, h.nodup, h.bound, h.size, List.Pairwise.nil⟩

theorem clear_spec (hpos : 0 < cfg.bucketCount) (h : Shape cfg s free lru chain) :
    ∃ s' free' chain', clear cfg s = (.clear, s') ∧ Shape cfg s' free' [] chain' ∧
      free'.length = free.length + lru.length := by
  obtain ⟨s', free', chain', hclear, hthreaded, hlen⟩ := (h.threaded hpos).clear
  exact ⟨s', free', chain', hclear, hthreaded.shape_nil, hlen⟩

/-! ## `init` -/

/-- The loop of `reset_free_list` pushes every entry of `is` on the free list. -/
theorem foldl_resetEntry (is : List ℕ) (hnodup : is.Nodup) (hout : ∀ i ∈ is, i ∉ free)
    (hrecency : s.recency.Walks []) (hlinks : s.links.Walks cfg.bucketCount free fun _ => []) :
    (is.foldl resetEntry s).recency.Walks [] ∧
      (is.foldl resetEntry s).links.Walks cfg.bucketCount (is.reverse ++ free) (fun _ => []) ∧
      (is.foldl resetEntry s).size = s.size := by
  induction is generalizing s free with
  | nil => exact ⟨hrecency, hlinks, rfl⟩
  | cons i is ih =>
    obtain ⟨hnot, hnodup⟩ := List.nodup_cons.mp hnodup
    have hout' : ∀ j ∈ is, j ∉ i :: free := by
      intro j hj hmem
      rcases List.mem_cons.mp hmem with rfl | hmem
      · exact hnot hj
      · exact hout j (List.mem_cons_of_mem i hj) hmem
    have hrelease := hlinks.release (hout i List.mem_cons_self) fun _ _ => List.not_mem_nil
    have hforget := hrecency.forget (List.not_mem_nil (a := i))
    rw [List.foldl_cons, List.reverse_cons, List.append_assoc]
    exact ih (s := resetEntry s i) hnodup hout' hforget hrelease

/-- **`init`** accepts any positive capacity and bucket count, and every entry is free then. -/
theorem init_spec (hcap : 0 < cfg.capacity) (hbuckets : 0 < cfg.bucketCount)
    (memory : LruCache K V) :
    ∃ s free, init cfg true memory = .ok s ∧ Shape cfg s free [] (fun _ => []) ∧
      free.length = cfg.capacity := by
  have hargs : ¬ (true = false ∨ cfg.capacity = 0 ∨ cfg.bucketCount = 0) := by
    rintro (h | h | h)
    · cases h
    · omega
    · omega
  -- the state before the loop: every list is empty
  obtain ⟨s₁, hreset, hrecency, hlinks, hsize⟩ : ∃ s₁ : LruCache K V,
      resetFreeList cfg memory = (List.range cfg.capacity).foldl resetEntry s₁ ∧
        s₁.recency.Walks [] ∧ (s₁.links.Walks cfg.bucketCount [] fun _ => []) ∧ s₁.size = 0 := by
    refine ⟨_, rfl, ⟨rfl, rfl⟩, ⟨rfl, ?_, List.nodup_nil, fun _ _ => List.nodup_nil, ?_, ?_⟩, rfl⟩
    · intro b hb
      exact if_pos hb
    · exact fun _ _ _ hi => absurd hi List.not_mem_nil
    · exact fun _ _ _ _ _ _ hi => absurd hi List.not_mem_nil
  obtain ⟨hrecency', hlinks', hsize'⟩ := foldl_resetEntry (List.range cfg.capacity)
    List.nodup_range (fun _ _ => List.not_mem_nil) hrecency hlinks
  rw [← hreset, List.append_nil] at hlinks'
  rw [← hreset] at hrecency' hsize'
  refine ⟨_, _, by rw [init, if_neg hargs],
    ⟨hrecency', hlinks', ?_, ?_, ?_, hsize'.trans hsize, List.Pairwise.nil⟩, by simp⟩
  · intro b _ i
    simp
  · simpa using List.nodup_range
  · intro i hi
    simpa using hi

/-- Memory before `init`. -/
def blank : LruCache ℕ ℕ where
  recency := ⟨none, none, fun _ => none, fun _ => none⟩
  links := ⟨fun _ => none, none, fun _ => none⟩
  keys _ := 0
  values _ := 0
  size := 0
  copies := 0

end LruCache

end Memkit
