import Memkit.Core.Answer
import Memkit.Core.ElementCells
import Memkit.Hashing.OpenAddressing

/-! # The chaining hash map

`detail/hashmap_map_core.hpp` with `strategy_ == chaining`: an array of buckets, each the head of a
singly linked chain of nodes with a key and a value, and growth by relinking the nodes into a larger
array. Nodes and bucket arrays come from `alloc_raw`; a node has the number of the request that it
was allocated by, so a node that was freed is not used again under its number. `size_` counts nodes
and never wraps.

The loops over a chain take a bound on their rounds, which no chain exceeds that does not run in a
circle (`rounds`). A call answers `none` if it does not return. -/

namespace Memkit

variable {w : ℕ} {K V : Type*}

/-- The members of `hashmap_map_core` that no operation changes, and the arguments of
`init_chaining`. -/
structure ChainConfig (w : ℕ) (K V : Type*) where
  /-- `key_policy_`. -/
  keyPolicy : ElementPolicy K
  /-- `value_policy_`. -/
  valuePolicy : ElementPolicy V
  /-- `hash_policy_`. -/
  hashPolicy : HashPolicy w K
  /-- Whether `policy_` has the `growable` bit. -/
  growable : Bool
  /-- `alloc_raw`: the status of the `n`-th request, for the given number of bytes. -/
  allocRaw : ℕ → BitVec w → Status
  /-- `chain_node_bytes` of the sizes of a key and a value. -/
  nodeBytes : BitVec w
  /-- `sizeof(hashmap_chain_node*)`. -/
  pointerSize : BitVec w
  /-- The number of buckets given to `init_chaining`. -/
  initialBuckets : BitVec w
  pointerSize_pos : 0 < pointerSize.toNat
  initialBuckets_pos : 0 < initialBuckets.toNat
  /-- A block of memory has at most `PTRDIFF_MAX` bytes: the buckets given to `init_chaining`, -/
  initialBuckets_real : initialBuckets.toNat * pointerSize.toNat < 2 ^ (w - 1)
  /-- and what the allocator grants. -/
  allocRaw_real : ∀ n bytes, allocRaw n bytes = .ok → bytes.toNat < 2 ^ (w - 1)

/-- The same map with other callbacks for its values. -/
def ChainConfig.withValuePolicy {w : ℕ} {K V : Type*} (cfg : ChainConfig w K V)
    (valuePolicy : ElementPolicy V) : ChainConfig w K V :=
  { cfg with valuePolicy := valuePolicy }

/-- The members of `hashmap_map_core` that the operations change, the links of the nodes, and the
keys and values in them. -/
structure ChainMap (w : ℕ) (K V : Type*) where
  /-- `buckets_`. -/
  buckets : ℕ → Option ℕ
  /-- `bucket_count_`. -/
  bucketCount : BitVec w
  /-- The `next` links. -/
  next : ℕ → Option ℕ
  /-- `size_`. -/
  size : ℕ
  /-- Allocations requested so far. -/
  allocs : ℕ
  keys : Cells ℕ K
  values : Cells ℕ V

namespace ChainMap

/-- A walk over more nodes than this meets one of them twice. -/
def rounds (s : ChainMap w K V) : ℕ := s.allocs

/-- The bucket of a key: `hash(key) % bucket_count`. -/
def bucketIndex (cfg : ChainConfig w K V) (bucketCount : BitVec w) (key : K) : ℕ :=
  (cfg.hashPolicy.hash key).toNat % bucketCount.toNat

/-! ## Nodes -/

/-- `alloc_chain_node`. -/
def allocChainNode (cfg : ChainConfig w K V) (s : ChainMap w K V) (key : K) (value : V) :
    Except Status ℕ × ChainMap w K V :=
  let st := cfg.allocRaw s.allocs cfg.nodeBytes
  let node := s.allocs
  let s := { s with allocs := s.allocs + 1 }
  if st ≠ .ok then (.error st, s)
  else
    let s := { s with next := Function.update s.next node none }
    let (keySt, keys) := s.keys.copyConstruct cfg.keyPolicy node key
    let s := { s with keys := keys }
    if keySt ≠ .ok then (.error keySt, s)
    else
      let (valueSt, values) := s.values.copyConstruct cfg.valuePolicy node value
      let s := { s with values := values }
      if valueSt ≠ .ok then
        (.error valueSt, { s with keys := s.keys.destroy cfg.keyPolicy node })
      else (.ok node, s)

/-- `destroy_chain_node`. -/
def destroyChainNode (cfg : ChainConfig w K V) (s : ChainMap w K V) (node : ℕ) : ChainMap w K V :=
  { s with
    keys := s.keys.destroy cfg.keyPolicy node
    values := s.values.destroy cfg.valuePolicy node }

/-! ## Searching -/

/-- The loop of `chain_find`: the node found, and the one before it. -/
def findLoop (cfg : ChainConfig w K V) (s : ChainMap w K V) (key : K) :
    ℕ → Option ℕ → Option ℕ → Option (Option ℕ × Option ℕ)
  | _, prev, none => some (none, prev)
  | 0, _, some _ => none
  | rounds + 1, prev, some node =>
    if cfg.hashPolicy.equal (s.keys.contents node) key then some (some node, prev)
    else findLoop cfg s key rounds (some node) (s.next node)

/-- `chain_find`. -/
def chainFind (cfg : ChainConfig w K V) (s : ChainMap w K V) (bucketIndex : ℕ) (key : K) :
    Option (Option ℕ × Option ℕ) :=
  findLoop cfg s key s.rounds none (s.buckets bucketIndex)

/-- `chain_get`, whose loop is that of `chain_find`: the status and the contents of `out_value`
afterwards. -/
def chainGet (cfg : ChainConfig w K V) (s : ChainMap w K V) (key : K) (out : V) :
    Option ((Status × V) × ChainMap w K V) :=
  (chainFind cfg s (bucketIndex cfg s.bucketCount key) key).map fun (node, _) =>
    match node with
    | none => ((.notFound, out), s)
    | some node =>
      ((.ok, cfg.valuePolicy.copyAssign s.values.copies out (s.values.contents node)),
        { s with values := { s.values with copies := s.values.copies + 1 } })

/-- `chain_contains`. -/
def chainContains (cfg : ChainConfig w K V) (s : ChainMap w K V) (key : K) : Option Bool :=
  (chainFind cfg s (bucketIndex cfg s.bucketCount key) key).map fun (node, _) => node.isSome

/-! ## Changing -/

/-- The end of `chain_put` for a key that is not stored: a node in front of the chain. -/
def addNode (cfg : ChainConfig w K V) (s : ChainMap w K V) (bucketIndex : ℕ) (key : K) (value : V) :
    Status × ChainMap w K V :=
  match allocChainNode cfg s key value with
  | (.error st, s) => (st, s)
  | (.ok node, s) =>
    (.ok,
      { s with
        next := Function.update s.next node (s.buckets bucketIndex)
        buckets := Function.update s.buckets bucketIndex (some node)
        size := s.size + 1 })

/-- `chain_put`. -/
def chainPut (cfg : ChainConfig w K V) (s : ChainMap w K V) (key : K) (value : V) :
    Option (Status × ChainMap w K V) :=
  let bucketIndex := bucketIndex cfg s.bucketCount key
  (chainFind cfg s bucketIndex key).map fun (existing, _) =>
    match existing with
    | some existing =>
      (.ok, { s with values := s.values.copyAssign cfg.valuePolicy existing value })
    | none => addNode cfg s bucketIndex key value

/-- The end of `chain_remove` for a node that was found: unlink and destroy it. -/
def dropNode (cfg : ChainConfig w K V) (s : ChainMap w K V) (bucketIndex node : ℕ)
    (prev : Option ℕ) : ChainMap w K V :=
  let s :=
    match prev with
    | none => { s with buckets := Function.update s.buckets bucketIndex (s.next node) }
    | some prev => { s with next := Function.update s.next prev (s.next node) }
  let s := destroyChainNode cfg s node
  { s with size := s.size - 1 }

/-- `chain_remove`. -/
def chainRemove (cfg : ChainConfig w K V) (s : ChainMap w K V) (key : K) :
    Option (Status × ChainMap w K V) :=
  let bucketIndex := bucketIndex cfg s.bucketCount key
  (chainFind cfg s bucketIndex key).map fun (node, prev) =>
    match node with
    | none => (.notFound, s)
    | some node => (.ok, dropNode cfg s bucketIndex node prev)

/-- The loop of `chain_clear` over one chain. -/
def clearChain (cfg : ChainConfig w K V) : ℕ → ChainMap w K V → Option ℕ → Option (ChainMap w K V)
  | _, s, none => some s
  | 0, _, some _ => none
  | rounds + 1, s, some node => clearChain cfg rounds (destroyChainNode cfg s node) (s.next node)

/-- The loop of `chain_clear` over the remaining buckets. -/
def clearBuckets (cfg : ChainConfig w K V) : List ℕ → ChainMap w K V → Option (ChainMap w K V)
  | [], s => some s
  | i :: is, s =>
    match clearChain cfg s.rounds s (s.buckets i) with
    | none => none
    | some s => clearBuckets cfg is { s with buckets := Function.update s.buckets i none }

/-- `chain_clear`. -/
def chainClear (cfg : ChainConfig w K V) (s : ChainMap w K V) : Option (ChainMap w K V) :=
  clearBuckets cfg (List.range s.bucketCount.toNat) s

/-! ## Growing -/

/-- The loop of `chain_rehash` over one chain: every node goes in front of its new chain. -/
def rehashChain (cfg : ChainConfig w K V) (s : ChainMap w K V) (newCount : BitVec w) :
    ℕ → (ℕ → Option ℕ) → (ℕ → Option ℕ) → Option ℕ → Option ((ℕ → Option ℕ) × (ℕ → Option ℕ))
  | _, newBuckets, next, none => some (newBuckets, next)
  | 0, _, _, some _ => none
  | rounds + 1, newBuckets, next, some node =>
    let index := bucketIndex cfg newCount (s.keys.contents node)
    rehashChain cfg s newCount rounds (Function.update newBuckets index (some node))
      (Function.update next node (newBuckets index)) (next node)

/-- The loop of `chain_rehash` over the remaining buckets. -/
def rehashBuckets (cfg : ChainConfig w K V) (s : ChainMap w K V) (newCount : BitVec w) :
    List ℕ → (ℕ → Option ℕ) → (ℕ → Option ℕ) → Option ((ℕ → Option ℕ) × (ℕ → Option ℕ))
  | [], newBuckets, next => some (newBuckets, next)
  | i :: is, newBuckets, next =>
    match rehashChain cfg s newCount s.rounds newBuckets next (s.buckets i) with
    | none => none
    | some (newBuckets, next) => rehashBuckets cfg s newCount is newBuckets next

/-- `chain_rehash`; the new buckets are zeroed memory. -/
def chainRehash (cfg : ChainConfig w K V) (s : ChainMap w K V) (newBucketCount : BitVec w) :
    Option (Status × ChainMap w K V) :=
  let allocSt := cfg.allocRaw s.allocs (newBucketCount * cfg.pointerSize)
  let s := { s with allocs := s.allocs + 1 }
  if allocSt ≠ .ok then some (allocSt, s)
  else
    (rehashBuckets cfg s newBucketCount (List.range s.bucketCount.toNat) (fun _ => none)
      s.next).map fun (newBuckets, next) =>
      (.ok, { s with buckets := newBuckets, next := next, bucketCount := newBucketCount })

/-- `maybe_grow`. -/
def maybeGrow (cfg : ChainConfig w K V) (s : ChainMap w K V) : Option (Status × ChainMap w K V) :=
  let newCount := growBucketCount s.bucketCount
  if newCount = s.bucketCount then some (.full, s) else chainRehash cfg s newCount

/-! ## The interface -/

/-- `put`; `none` is a null pointer. -/
def put (cfg : ChainConfig w K V) (s : ChainMap w K V) (key : Option K) (value : Option V) :
    Option (Status × ChainMap w K V) :=
  match key, value with
  | some key, some value =>
    if s.bucketCount = 0 then some (.nullPtr, s)
    else if shouldGrow cfg.growable s.bucketCount (BitVec.ofNat w s.size) then
      match maybeGrow cfg s with
      | none => none
      | some (growSt, s) => if growSt ≠ .ok then some (growSt, s) else chainPut cfg s key value
    else chainPut cfg s key value
  | _, _ => some (.nullPtr, s)

/-- `get`; `out` is what `out_value` points to. -/
def get (cfg : ChainConfig w K V) (s : ChainMap w K V) (key : Option K) (out : Option V) :
    Option ((Status × Option V) × ChainMap w K V) :=
  match key, out with
  | some key, some out => (chainGet cfg s key out).map fun ((st, out), s) => ((st, some out), s)
  | _, _ => some ((.nullPtr, out), s)

/-- `remove`. -/
def remove (cfg : ChainConfig w K V) (s : ChainMap w K V) (key : Option K) :
    Option (Status × ChainMap w K V) :=
  match key with
  | some key => chainRemove cfg s key
  | none => some (.nullPtr, s)

/-- `contains`. -/
def contains (cfg : ChainConfig w K V) (s : ChainMap w K V) (key : Option K) : Option Bool :=
  match key with
  | some key => chainContains cfg s key
  | none => some false

/-- `clear`. -/
def clear (cfg : ChainConfig w K V) (s : ChainMap w K V) : Option (ChainMap w K V) :=
  if s.bucketCount = 0 then some { s with size := 0 }
  else (chainClear cfg s).map fun s => { s with size := 0 }

/-- The loop of `foreach` over one chain. -/
def foreachChain (s : ChainMap w K V) (visit : List (K × V) → Status) :
    ℕ → List (K × V) → Option ℕ → Option (Status × List (K × V))
  | _, seen, none => some (.ok, seen)
  | 0, _, some _ => none
  | rounds + 1, seen, some node =>
    let seen := seen ++ [(s.keys.contents node, s.values.contents node)]
    let st := visit seen
    if st ≠ .ok then some (st, seen) else foreachChain s visit rounds seen (s.next node)

/-- The loop of `foreach` over the remaining buckets. -/
def foreachBuckets (s : ChainMap w K V) (visit : List (K × V) → Status) :
    List ℕ → List (K × V) → Option (Status × List (K × V))
  | [], seen => some (.ok, seen)
  | i :: is, seen =>
    match foreachChain s visit s.rounds seen (s.buckets i) with
    | none => none
    | some (st, seen) => if st ≠ .ok then some (st, seen) else foreachBuckets s visit is seen

/-- `foreach`. -/
def foreach (s : ChainMap w K V) (visit : List (K × V) → Status) :
    Option (Status × List (K × V)) :=
  foreachBuckets s visit (List.range s.bucketCount.toNat) []

/-! ## Calls -/

/-- The map after `init_chaining`, over memory with any contents. -/
def init (cfg : ChainConfig w K V) (links : ℕ → Option ℕ) (keyMemory : ℕ → K)
    (valueMemory : ℕ → V) : ChainMap w K V where
  buckets _ := none
  bucketCount := cfg.initialBuckets
  next := links
  size := 0
  allocs := 0
  keys := .start keyMemory
  values := .start valueMemory

/-- A call of the interface. -/
inductive Call (K V : Type*)
  | put (key : Option K) (value : Option V)
  | get (key : Option K) (out : Option V)
  | remove (key : Option K)
  | contains (key : Option K)
  | clear
  | foreach (visit : List (K × V) → Status)

/-- What a call returns, and what it writes to the memory of the caller. -/
inductive Reply (K V : Type*)
  | status (result : Status)
  /-- The status, and what the out pointer points to afterwards; `none` for a null pointer. -/
  | value (result : Status) (out : Option V)
  | contains (answer : Bool)
  | done
  /-- The status, and the pairs visited. -/
  | visits (result : Status) (seen : List (K × V))
  deriving DecidableEq, Repr

/-- The reply of a call that changes the map, if it has one. -/
def replyStatus (s : ChainMap w K V) :
    Option (Status × ChainMap w K V) → Option (Reply K V) × ChainMap w K V
  | none => (none, s)
  | some (st, s) => (some (.status st), s)

/-- Dispatch a call. -/
def call (cfg : ChainConfig w K V) (s : ChainMap w K V) :
    Call K V → Option (Reply K V) × ChainMap w K V
  | .put key value => replyStatus s (put cfg s key value)
  | .get key out =>
    match get cfg s key out with
    | none => (none, s)
    | some ((st, out), s) => (some (.value st out), s)
  | .remove key => replyStatus s (remove cfg s key)
  | .contains key => ((contains cfg s key).map .contains, s)
  | .clear =>
    match clear cfg s with
    | none => (none, s)
    | some s => (some .done, s)
  | .foreach visit => ((foreach s visit).map fun r => .visits r.1 r.2, s)

end ChainMap

end Memkit
