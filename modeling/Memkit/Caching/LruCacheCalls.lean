import Memkit.Caching.LruCacheConservation

/-! # Every call of the LRU cache

With a lawful hash and faithful copies every call returns and keeps some shape. The shape is not the
one of an accounted cache: an entry may be on no list after a copy over the victim failed. -/

namespace Memkit

namespace LruCache

variable {w : ℕ} {K V : Type*} {cfg : LruConfig w K V} {s : LruCache K V} {free lru : List ℕ}
  {chain : ℕ → List ℕ}

/-- The links have some shape. -/
def Shaped (cfg : LruConfig w K V) (s : LruCache K V) : Prop :=
  ∃ free lru chain, Shape cfg s free lru chain

/-- **`put`** of a new key returns. -/
theorem Shape.put_new (hlaw : cfg.hashEqPolicy.Lawful) (hpos : 0 < cfg.bucketCount)
    (hcap : 0 < cfg.capacity) (hkey : cfg.keyPolicy.Faithful) (hval : cfg.valuePolicy.Faithful)
    (h : Shape cfg s free lru chain) {key : K} (value : V)
    (hnew : ∀ j ∈ lru, cfg.hashEqPolicy.equal (s.keys j) key = false) :
    ∃ st s', put cfg s (some key) (some value) = (.put st, s') ∧ Shaped cfg s' := by
  cases free with
  | cons i free =>
    by_cases hok : CopiesOk cfg s i key value
    · obtain ⟨s', chain', hput, hshape, -⟩ := (put_new_free hlaw hpos hkey hval h hnew).1 hok
      exact ⟨.ok, s', hput, _, _, chain', hshape⟩
    · obtain ⟨st, s', -, hput, hshape, -⟩ := (put_new_free hlaw hpos hkey hval h hnew).2 hok
      exact ⟨st, s', hput, _, _, chain, hshape⟩
  | nil =>
    by_cases hfull : cfg.capacity ≤ s.size
    · obtain ⟨init, victim, rfl⟩ := (h.threaded hpos).exists_victim hcap hfull
      by_cases hok : CopiesOk cfg (destroyEntry cfg s victim) victim key value
      · obtain ⟨s', chain', hput, hshape, -⟩ := (put_new_full hlaw hpos hkey hval h hfull hnew).1 hok
        exact ⟨.ok, s', hput, _, _, chain', hshape⟩
      · obtain ⟨st, s', chain', -, hput, hshape, -⟩ :=
          (put_new_full hlaw hpos hkey hval h hfull hnew).2 hok
        exact ⟨st, s', hput, _, _, chain', hshape⟩
    · obtain ⟨last, hfind⟩ := h.find_absent hlaw hpos hnew
      exact ⟨.full, s, put_noRoom h.links.acquire_nil hfull hfind, _, _, chain, h⟩

/-- **`remove`** returns. -/
theorem Shape.remove_cases (hlaw : cfg.hashEqPolicy.Lawful) (hpos : 0 < cfg.bucketCount)
    (h : Shape cfg s free lru chain) (key : Option K) :
    ∃ st s', remove cfg s key = (.remove st, s') ∧ Shaped cfg s' := by
  cases key with
  | none => exact ⟨_, s, rfl, free, lru, chain, h⟩
  | some key =>
    rcases h.find hlaw hpos key with ⟨i, hi, -, hbucket, as, bs, hchain, hfind⟩ | ⟨-, last, hfind⟩
    · obtain ⟨s', chain', hremove, hshape, -⟩ := remove_stored hpos h hi hbucket hchain hfind
      exact ⟨.ok, s', hremove, _, _, chain', hshape⟩
    · exact ⟨.notFound, s, by simp only [remove, hfind], free, lru, chain, h⟩

section Calls

variable (hlaw : cfg.hashEqPolicy.Lawful) (hpos : 0 < cfg.bucketCount) (hcap : 0 < cfg.capacity)
  (hkey : cfg.keyPolicy.Faithful) (hval : cfg.valuePolicy.Faithful)

/-- A call that looks a key up and copies to the caller returns. -/
theorem Threaded.not_hang (hpos : 0 < cfg.bucketCount) (h : Threaded cfg s free lru chain)
    (key : Option K) (out : Option V) :
    (LruCache.get cfg s key out).1 ≠ .hang ∧ (LruCache.peek cfg s key out).1 ≠ .hang ∧
      (LruCache.touch cfg s key).1 ≠ .hang ∧ LruCache.contains cfg s key ≠ .hang := by
  cases key with
  | none => exact ⟨nofun, nofun, nofun, nofun⟩
  | some key =>
    obtain ⟨entry, prev, hfind⟩ : ∃ entry prev, findEntry cfg s key = some ⟨entry, prev⟩ := by
      rcases h.find hpos key with ⟨i, -, -, as, -, -, hfind⟩ | ⟨-, last, hfind⟩
      · exact ⟨_, _, hfind⟩
      · exact ⟨_, _, hfind⟩
    unfold LruCache.get LruCache.peek LruCache.touch LruCache.contains
    dsimp only
    rw [hfind]
    rcases entry with _ | slot
    · exact ⟨nofun, nofun, nofun, nofun⟩
    · dsimp only
      refine ⟨?_, ?_, nofun, nofun⟩
      all_goals repeat' split
      all_goals nofun

include hlaw hpos hcap hkey hval

/-- **Every call returns** and keeps a shape. -/
theorem Shaped.call (h : Shaped cfg s) (c : Call K V) :
    (call cfg s c).1 ≠ .hang ∧ Shaped cfg (LruCache.call cfg s c).2 := by
  have hself := h
  obtain ⟨free, lru, chain, h⟩ := h
  have hreturns := (h.threaded hpos).not_hang hpos
  have hconsulted : ∀ {s' : LruCache K V}, Consulted cfg s s' → Shaped cfg s' := by
    intro s' hs'
    obtain ⟨lru', hshape, -⟩ := h.consulted hlaw hpos hs'
    exact ⟨free, lru', chain, hshape⟩
  cases c with
  | get key out => exact ⟨(hreturns key out).1, hconsulted (get_consulted cfg s key out)⟩
  | peek key out => exact ⟨(hreturns key out).2.1, hconsulted (peek_consulted cfg s key out)⟩
  | touch key => exact ⟨(hreturns key none).2.2.1, hconsulted (touch_consulted cfg s key)⟩
  | contains key => exact ⟨(hreturns key none).2.2.2, hself⟩
  | remove key =>
    obtain ⟨st, s', hremove, hshaped⟩ := h.remove_cases hlaw hpos key
    rw [LruCache.call, hremove]
    exact ⟨by rintro ⟨⟩, hshaped⟩
  | clear =>
    obtain ⟨s', free', chain', hclear, hshape, -⟩ := clear_spec hpos h
    rw [LruCache.call, hclear]
    exact ⟨by rintro ⟨⟩, free', [], chain', hshape⟩
  | put key value =>
    rcases key with _ | key
    · exact ⟨by rintro ⟨⟩, hself⟩
    · rcases value with _ | value
      · exact ⟨by rintro ⟨⟩, hself⟩
      rcases h.find hlaw hpos key with ⟨i, hi, -, -, as, bs, -, hfind⟩ | ⟨hnone, -⟩
      · by_cases hcopy : (cfg.valuePolicy.copyConstruct s.copies (s.values i) value).1 = .ok
        · obtain ⟨s', hput, hshape, -⟩ := (put_stored hlaw h hval hi hfind).1 hcopy
          rw [LruCache.call, hput]
          exact ⟨by rintro ⟨⟩, free, _, chain, hshape⟩
        · obtain ⟨st, s', -, hput, hshape⟩ := (put_stored hlaw h hval hi hfind).2 hcopy
          rw [LruCache.call, hput]
          exact ⟨by rintro ⟨⟩, free, lru, chain, hshape⟩
      · obtain ⟨st, s', hput, hshaped⟩ := h.put_new hlaw hpos hcap hkey hval value hnone
        rw [LruCache.call, hput]
        exact ⟨by rintro ⟨⟩, hshaped⟩

end Calls

end LruCache

end Memkit
