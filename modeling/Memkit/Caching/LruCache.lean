import Memkit.Foundations.Transition
import Memkit.Core.ElementPolicy

/-! # The LRU cache

`detail/lrucache_map_core.hpp` with `runtime_element_policy`: a pool of entries, each linked into a
hash chain and into a doubly linked recency list while it is live, and into the free list (through
the same `hash_next` link) while it is not. A pointer to an entry is its number in the pool, `none`
for null. `size_`, `capacity_` and `bucket_count_` are naturals: `size_` counts pool entries and
never wraps.

* **`RecencyList`** — `lru_head_`, `lru_tail_` and the `lru_prev`, `lru_next` links.
* **`HashLinks`** — `buckets_`, `free_list_` and the `hash_next` links.
* **`LruCache`** — both, with the keys and values of the entries.

A loop over a chain takes the capacity as a bound on its rounds; a chain that is longer runs in a
circle, and the call does not return (`Reply.hang`). -/

namespace Memkit

variable {w : ℕ} {K V : Type*}

/-- The members of `lrucache_map_core` that no operation changes. -/
structure LruConfig (w : ℕ) (K V : Type*) where
  /-- `key_policy_`. -/
  keyPolicy : ElementPolicy K
  /-- `value_policy_`. -/
  valuePolicy : ElementPolicy V
  /-- `hash_eq_policy_`. -/
  hashEqPolicy : HashPolicy w K
  /-- `capacity_`. -/
  capacity : ℕ
  /-- `bucket_count_`. -/
  bucketCount : ℕ

/-- The recency list: most recent at `head`. -/
structure RecencyList where
  /-- `lru_head_`. -/
  head : Option ℕ
  /-- `lru_tail_`. -/
  tail : Option ℕ
  /-- `lru_prev`. -/
  prev : ℕ → Option ℕ
  /-- `lru_next`. -/
  next : ℕ → Option ℕ

/-- The hash chains and the free list. -/
structure HashLinks where
  /-- `buckets_`. -/
  buckets : ℕ → Option ℕ
  /-- `free_list_`. -/
  freeList : Option ℕ
  /-- `hash_next`. -/
  hashNext : ℕ → Option ℕ

/-- The members of `lrucache_map_core` that the operations change, and the entry pool. -/
structure LruCache (K V : Type*) where
  recency : RecencyList
  links : HashLinks
  /-- The keys of the entries. -/
  keys : ℕ → K
  /-- The values of the entries. -/
  values : ℕ → V
  /-- `size_`. -/
  size : ℕ
  /-- Copy callbacks called so far. -/
  copies : ℕ

/-! ## The recency list -/

namespace RecencyList

/-- `lru_unlink`. -/
def lruUnlink (l : RecencyList) (slot : ℕ) : RecencyList :=
  let l :=
    match l.prev slot with
    | some p => { l with next := Function.update l.next p (l.next slot) }
    | none => { l with head := l.next slot }
  let l :=
    match l.next slot with
    | some n => { l with prev := Function.update l.prev n (l.prev slot) }
    | none => { l with tail := l.prev slot }
  { l with prev := Function.update l.prev slot none, next := Function.update l.next slot none }

/-- `lru_push_front`. -/
def lruPushFront (l : RecencyList) (slot : ℕ) : RecencyList :=
  let l :=
    { l with
      prev := Function.update l.prev slot none
      next := Function.update l.next slot l.head }
  let l :=
    match l.head with
    | some h => { l with prev := Function.update l.prev h (some slot) }
    | none => { l with tail := some slot }
  { l with head := some slot }

/-- `promote`. -/
def promote (l : RecencyList) (slot : ℕ) : RecencyList :=
  if l.head = some slot then l else (l.lruUnlink slot).lruPushFront slot

/-- Null both links of an entry. -/
def forget (l : RecencyList) (slot : ℕ) : RecencyList :=
  { l with prev := Function.update l.prev slot none, next := Function.update l.next slot none }

end RecencyList

/-! ## The hash chains and the free list -/

namespace HashLinks

/-- `hash_unlink`. -/
def hashUnlink (h : HashLinks) (bucketIndex slot : ℕ) (prev : Option ℕ) : HashLinks :=
  let h :=
    match prev with
    | none => { h with buckets := Function.update h.buckets bucketIndex (h.hashNext slot) }
    | some p => { h with hashNext := Function.update h.hashNext p (h.hashNext slot) }
  { h with hashNext := Function.update h.hashNext slot none }

/-- The two assignments of `put` that link a new entry into its chain. -/
def hashLink (h : HashLinks) (bucketIndex slot : ℕ) : HashLinks :=
  let h := { h with hashNext := Function.update h.hashNext slot (h.buckets bucketIndex) }
  { h with buckets := Function.update h.buckets bucketIndex (some slot) }

/-- `acquire_entry`. -/
def acquire (h : HashLinks) : Option ℕ × HashLinks :=
  match h.freeList with
  | none => (none, h)
  | some slot =>
    (some slot,
      { h with
        freeList := h.hashNext slot
        hashNext := Function.update h.hashNext slot none })

/-- The part of `release_entry` that puts an entry on the free list. -/
def release (h : HashLinks) (slot : ℕ) : HashLinks :=
  { h with
    hashNext := Function.update h.hashNext slot h.freeList
    freeList := some slot }

end HashLinks

namespace LruCache

/-- The bucket of a key: `hash(key) % bucket_count_`. -/
def bucketOf (cfg : LruConfig w K V) (key : K) : ℕ :=
  (cfg.hashEqPolicy.hash key).toNat % cfg.bucketCount

/-- What `find_entry` reports: the entry found and the one before it in the chain. -/
structure Found where
  entry : Option ℕ
  prev : Option ℕ

/-- The loop of `find_entry`, for at most `rounds` entries; `none` if it goes on for longer. -/
def findLoop (matches_ : ℕ → Bool) (hashNext : ℕ → Option ℕ) :
    ℕ → Option ℕ → Option ℕ → Option Found
  | _, prev, none => some ⟨none, prev⟩
  | 0, _, some _ => none
  | rounds + 1, prev, some current =>
    if matches_ current then some ⟨some current, prev⟩
    else findLoop matches_ hashNext rounds (some current) (hashNext current)

/-- `find_entry`. -/
def findEntry (cfg : LruConfig w K V) (s : LruCache K V) (key : K) : Option Found :=
  findLoop (fun i => cfg.hashEqPolicy.equal (s.keys i) key) s.links.hashNext cfg.capacity none
    (s.links.buckets (bucketOf cfg key))

/-- `destroy_entry`; a policy without a destroy callback leaves the element as it is. -/
def destroyEntry (cfg : LruConfig w K V) (s : LruCache K V) (slot : ℕ) : LruCache K V :=
  { s with
    keys := Function.update s.keys slot (cfg.keyPolicy.destroy (s.keys slot))
    values := Function.update s.values slot (cfg.valuePolicy.destroy (s.values slot)) }

/-- `release_entry`. -/
def releaseEntry (s : LruCache K V) (slot : ℕ) : LruCache K V :=
  { s with recency := s.recency.forget slot, links := s.links.release slot }

/-- `promote` on the cache. -/
def promote (s : LruCache K V) (slot : ℕ) : LruCache K V :=
  { s with recency := s.recency.promote slot }

/-- What a call returns: its status or answer, and what it writes to `out_value`. -/
inductive Reply (V : Type*)
  | get (result : Status) (out : Option V)
  | peek (result : Status) (out : Option V)
  | touch (result : Status)
  | put (result : Status)
  | remove (result : Status)
  | contains (answer : Bool)
  | clear
  /-- The call does not return. -/
  | hang
  deriving DecidableEq, Repr

/-- The eviction in `prepare_entry`: the entry at the tail is destroyed and unlinked. -/
def evict (cfg : LruConfig w K V) (s : LruCache K V) (slot : ℕ) (prev : Option ℕ) :
    LruCache K V :=
  let bucket := bucketOf cfg (s.keys slot)
  let s := destroyEntry cfg s slot
  { s with
    recency := s.recency.lruUnlink slot
    links := s.links.hashUnlink bucket slot prev
    size := s.size - 1 }

/-- The two copies at the end of `prepare_entry`. The entry goes back to the free list after a
failed copy only if it came from there. -/
def fillEntry (cfg : LruConfig w K V) (s : LruCache K V) (slot : ℕ) (fromFree : Bool) (key : K)
    (value : V) : Status × LruCache K V :=
  let (keySt, newKey) := cfg.keyPolicy.copyConstruct s.copies (s.keys slot) key
  let s := { s with keys := Function.update s.keys slot newKey, copies := s.copies + 1 }
  if keySt ≠ .ok then (keySt, if fromFree then releaseEntry s slot else s)
  else
    let (valueSt, newValue) := cfg.valuePolicy.copyConstruct s.copies (s.values slot) value
    let s := { s with values := Function.update s.values slot newValue, copies := s.copies + 1 }
    if valueSt ≠ .ok then
      let s := { s with keys := Function.update s.keys slot (cfg.keyPolicy.destroy (s.keys slot)) }
      (valueSt, if fromFree then releaseEntry s slot else s)
    else (.ok, s)

/-- `prepare_entry`: the status, the entry to link when it is ok, and the cache. -/
def prepareEntry (cfg : LruConfig w K V) (s : LruCache K V) (key : K) (value : V) :
    Option (Status × ℕ × LruCache K V) :=
  match s.links.acquire with
  | (some slot, links) =>
    let (st, s) := fillEntry cfg { s with links := links } slot true key value
    some (st, slot, s)
  | (none, _) =>
    match s.recency.tail with
    | none => some (.full, 0, s)
    | some slot =>
      if s.size < cfg.capacity then some (.full, 0, s)
      else
        match findEntry cfg s (s.keys slot) with
        | none => none
        | some found =>
          let (st, s) := fillEntry cfg (evict cfg s slot found.prev) slot false key value
          some (st, slot, s)

/-- `get`; `out` is what `out_value` points to. -/
def get (cfg : LruConfig w K V) (s : LruCache K V) (key : Option K) (out : Option V) :
    Reply V × LruCache K V :=
  match key with
  | none => (.get .nullPtr out, s)
  | some key =>
    match findEntry cfg s key with
    | none => (.hang, s)
    | some ⟨none, _⟩ => (.get .notFound out, s)
    | some ⟨some slot, _⟩ =>
      match out with
      | none => (.get .ok none, s.promote slot)
      | some dst =>
        let (copySt, dst) := cfg.valuePolicy.copyConstruct s.copies dst (s.values slot)
        let s := { s with copies := s.copies + 1 }
        if copySt ≠ .ok then (.get copySt (some dst), s)
        else (.get .ok (some dst), s.promote slot)

/-- `peek`. -/
def peek (cfg : LruConfig w K V) (s : LruCache K V) (key : Option K) (out : Option V) :
    Reply V × LruCache K V :=
  match key with
  | none => (.peek .nullPtr out, s)
  | some key =>
    match findEntry cfg s key with
    | none => (.hang, s)
    | some ⟨none, _⟩ => (.peek .notFound out, s)
    | some ⟨some slot, _⟩ =>
      match out with
      | none => (.peek .ok none, s)
      | some dst =>
        let (copySt, dst) := cfg.valuePolicy.copyConstruct s.copies dst (s.values slot)
        (.peek copySt (some dst), { s with copies := s.copies + 1 })

/-- `put`. -/
def put (cfg : LruConfig w K V) (s : LruCache K V) (key : Option K) (value : Option V) :
    Reply V × LruCache K V :=
  match key, value with
  | some key, some value =>
    match findEntry cfg s key with
    | none => (.hang, s)
    | some ⟨some slot, _⟩ =>
      let (copySt, newValue) := cfg.valuePolicy.copyConstruct s.copies (s.values slot) value
      let s := { s with values := Function.update s.values slot newValue, copies := s.copies + 1 }
      if copySt ≠ .ok then (.put copySt, s) else (.put .ok, s.promote slot)
    | some ⟨none, _⟩ =>
      match prepareEntry cfg s key value with
      | none => (.hang, s)
      | some (st, slot, s) =>
        if st ≠ .ok then (.put st, s)
        else
          (.put .ok,
            { s with
              links := s.links.hashLink (bucketOf cfg key) slot
              recency := s.recency.lruPushFront slot
              size := s.size + 1 })
  | _, _ => (.put .nullPtr, s)

/-- `remove`. -/
def remove (cfg : LruConfig w K V) (s : LruCache K V) (key : Option K) :
    Reply V × LruCache K V :=
  match key with
  | none => (.remove .nullPtr, s)
  | some key =>
    match findEntry cfg s key with
    | none => (.hang, s)
    | some ⟨none, _⟩ => (.remove .notFound, s)
    | some ⟨some slot, prev⟩ =>
      let s := destroyEntry cfg s slot
      let s := { s with recency := s.recency.lruUnlink slot }
      let s := { s with links := s.links.hashUnlink (bucketOf cfg key) slot prev }
      let s := releaseEntry s slot
      (.remove .ok, { s with size := s.size - 1 })

/-- `contains`. -/
def contains (cfg : LruConfig w K V) (s : LruCache K V) (key : Option K) : Reply V :=
  match key with
  | none => .contains false
  | some key =>
    match findEntry cfg s key with
    | none => .hang
    | some found => .contains found.entry.isSome

/-- `touch`. -/
def touch (cfg : LruConfig w K V) (s : LruCache K V) (key : Option K) :
    Reply V × LruCache K V :=
  match key with
  | none => (.touch .nullPtr, s)
  | some key =>
    match findEntry cfg s key with
    | none => (.hang, s)
    | some ⟨none, _⟩ => (.touch .notFound, s)
    | some ⟨some slot, _⟩ => (.touch .ok, s.promote slot)

/-- The inner loop of `clear`, along one chain from `current`. -/
def clearChain (cfg : LruConfig w K V) : ℕ → LruCache K V → Option ℕ → Option (LruCache K V)
  | _, s, none => some s
  | 0, _, some _ => none
  | rounds + 1, s, some current =>
    clearChain cfg rounds (releaseEntry (destroyEntry cfg s current) current)
      (s.links.hashNext current)

/-- The outer loop of `clear`, over the remaining buckets. -/
def clearBuckets (cfg : LruConfig w K V) : List ℕ → LruCache K V → Option (LruCache K V)
  | [], s => some s
  | i :: is, s =>
    match clearChain cfg cfg.capacity s (s.links.buckets i) with
    | none => none
    | some s =>
      clearBuckets cfg is
        { s with links := { s.links with buckets := Function.update s.links.buckets i none } }

/-- `clear`. -/
def clear (cfg : LruConfig w K V) (s : LruCache K V) : Reply V × LruCache K V :=
  if s.size = 0 then (.clear, s)
  else
    match clearBuckets cfg (List.range cfg.bucketCount) s with
    | none => (.hang, s)
    | some s =>
      (.clear, { s with recency := { s.recency with head := none, tail := none }, size := 0 })

/-- The loop of `foreach_list`: `visit` folds a state and may stop the loop by its status. -/
def foreachLoop {σ : Type*} (visit : σ → K → V → Status × σ) (s : LruCache K V)
    (next : ℕ → Option ℕ) : ℕ → σ → Option ℕ → Option (Status × σ)
  | _, acc, none => some (.ok, acc)
  | 0, _, some _ => none
  | rounds + 1, acc, some current =>
    let (st, acc) := visit acc (s.keys current) (s.values current)
    if st ≠ .ok then some (st, acc)
    else foreachLoop visit s next rounds acc (next current)

/-- `foreach_list`; `none` if it does not return. -/
def foreachList {σ : Type*} (cfg : LruConfig w K V) (visit : σ → K → V → Status × σ)
    (s : LruCache K V) (mruOrder : Bool) (acc : σ) : Option (Status × σ) :=
  if mruOrder then foreachLoop visit s s.recency.next cfg.capacity acc s.recency.head
  else foreachLoop visit s s.recency.prev cfg.capacity acc s.recency.tail

/-- `foreach_mru`. -/
def foreachMru {σ : Type*} (cfg : LruConfig w K V) (visit : σ → K → V → Status × σ)
    (s : LruCache K V) (acc : σ) : Option (Status × σ) :=
  foreachList cfg visit s true acc

/-- `foreach_lru`. -/
def foreachLru {σ : Type*} (cfg : LruConfig w K V) (visit : σ → K → V → Status × σ)
    (s : LruCache K V) (acc : σ) : Option (Status × σ) :=
  foreachList cfg visit s false acc

/-- One round of the loop of `reset_free_list`. -/
def resetEntry (s : LruCache K V) (i : ℕ) : LruCache K V :=
  { s with recency := s.recency.forget i, links := s.links.release i }

/-- `reset_free_list`. -/
def resetFreeList (cfg : LruConfig w K V) (s : LruCache K V) : LruCache K V :=
  let s :=
    { s with
      recency := { s.recency with head := none, tail := none }
      links :=
        { s.links with
          freeList := none
          buckets := fun b => if b < cfg.bucketCount then none else s.links.buckets b }
      size := 0 }
  (List.range cfg.capacity).foldl resetEntry s

/-- `init` over memory with contents `s`; `hasMemory` says that neither pointer is null. -/
def init (cfg : LruConfig w K V) (hasMemory : Bool) (s : LruCache K V) :
    Except Status (LruCache K V) :=
  if hasMemory = false ∨ cfg.capacity = 0 ∨ cfg.bucketCount = 0 then .error .invalid
  else .ok (resetFreeList cfg s)

/-- A call of the cache's interface. -/
inductive Call (K V : Type*)
  | get (key : Option K) (out : Option V)
  | peek (key : Option K) (out : Option V)
  | touch (key : Option K)
  | put (key : Option K) (value : Option V)
  | remove (key : Option K)
  | contains (key : Option K)
  | clear
  deriving DecidableEq, Repr

/-- Dispatch a call. -/
def call (cfg : LruConfig w K V) (s : LruCache K V) : Call K V → Reply V × LruCache K V
  | .get key out => get cfg s key out
  | .peek key out => peek cfg s key out
  | .touch key => touch cfg s key
  | .put key value => put cfg s key value
  | .remove key => remove cfg s key
  | .contains key => (contains cfg s key, s)
  | .clear => clear cfg s

end LruCache

end Memkit
