import Memkit.Foundations.BucketChains
import Memkit.Hashing.Chaining
import Memkit.Hashing.OpenAddressingMap

/-! # What the operations of the chaining hash map do

The invariant of the pointers of `hashmap_map_core` with chains, and what each operation does to the
chains, to the keys and values in the nodes, and to the objects, for any policies.

* **`Inv`** — the buckets hold chains of allocated nodes, each node once.
* **`Adds`, `Drops`, `Relinks`, `Keeps`** — what an operation does.
* **`chainPut_cases`, `chainRemove_cases`, `maybeGrow_cases`, `clear_cases`, `foreach_eq`** — one
  lemma for each operation. -/

namespace Memkit

open BucketChains LinkedChain

variable {w : ℕ} {K V : Type*}

namespace ChainMap

variable {cfg : ChainConfig w K V} {s u : ChainMap w K V} {chains chains' : ℕ → List ℕ}
  {key : K} {value : V} {as bs cs : List ℕ} {node b : ℕ}

/-- The nodes of all chains. -/
abbrev stored (s : ChainMap w K V) (chains : ℕ → List ℕ) : List ℕ :=
  nodes s.bucketCount.toNat chains

/-- The key and the value in a node. -/
def entry (s : ChainMap w K V) (node : ℕ) : K × V := (s.keys.contents node, s.values.contents node)

/-- **The invariant**: the buckets hold chains of allocated nodes, and their array is memory. -/
structure Inv (cfg : ChainConfig w K V) (s : ChainMap w K V) (chains : ℕ → List ℕ) : Prop where
  chained : Chained s.next s.buckets s.bucketCount.toNat chains
  allocated : ∀ node ∈ stored s chains, node < s.allocs
  pos : 0 < s.bucketCount.toNat
  real : s.bucketCount.toNat * cfg.pointerSize.toNat < 2 ^ (w - 1)
  size_eq : s.size = (stored s chains).length

/-- The keys and the values of these nodes are objects, and nothing else is. -/
structure Holding (s : ChainMap w K V) (nodes : List ℕ) : Prop where
  keys : s.keys.ledger.Holds {i | i ∈ nodes}
  values : s.values.ledger.Holds {i | i ∈ nodes}

theorem Holding.perm {xs ys : List ℕ} (h : Holding s xs) (hperm : xs.Perm ys) : Holding s ys := by
  have hset : {i | i ∈ xs} = {i | i ∈ ys} := Set.ext fun i => hperm.mem_iff
  exact ⟨hset ▸ h.keys, hset ▸ h.values⟩

theorem inv_init (cfg : ChainConfig w K V) (links : ℕ → Option ℕ) (keyMemory : ℕ → K)
    (valueMemory : ℕ → V) :
    Inv cfg (init cfg links keyMemory valueMemory) (fun _ => []) ∧
      Holding (init cfg links keyMemory valueMemory) [] := by
  have hnodes : nodes cfg.initialBuckets.toNat (fun _ => ([] : List ℕ)) = [] := by simp [nodes]
  have hempty : {i : ℕ | i ∈ ([] : List ℕ)} = ∅ := by simp
  refine ⟨⟨chained_empty links _, fun node hnode => ?_, cfg.initialBuckets_pos,
    cfg.initialBuckets_real, ?_⟩, ?_, ?_⟩
  · rw [show stored (init cfg links keyMemory valueMemory) (fun _ => []) = [] from hnodes] at hnode
    cases hnode
  · rw [show stored (init cfg links keyMemory valueMemory) (fun _ => []) = [] from hnodes]
    rfl
  · rw [hempty]
    exact Ledger.holds_empty
  · rw [hempty]
    exact Ledger.holds_empty

namespace Inv

theorem bucketIndex_lt (h : Inv cfg s chains) (key : K) :
    bucketIndex cfg s.bucketCount key < s.bucketCount.toNat := Nat.mod_lt _ h.pos

theorem bucketCount_ne (h : Inv cfg s chains) : s.bucketCount ≠ 0 := by
  intro hzero
  have hpos := h.pos
  rw [hzero, show (0 : BitVec w).toNat = 0 from BitVec.toNat_zero] at hpos
  exact Nat.lt_irrefl 0 hpos

/-- A node that is not allocated is in no chain. -/
theorem notMem (h : Inv cfg s chains) : s.allocs ∉ stored s chains :=
  fun hmem => lt_irrefl _ (h.allocated _ hmem)

/-- No chain is longer than the bound on the rounds. -/
theorem length_le (h : Inv cfg s chains) (hb : b < s.bucketCount.toNat) :
    (chains b).length ≤ s.rounds := by
  have hsub : chains b ⊆ List.range s.allocs := fun i hi =>
    List.mem_range.mpr (h.allocated i (mem_nodes.mpr ⟨b, hb, hi⟩))
  have hle := (List.subperm_of_subset (h.chained.nodup_chain hb) hsub).length_le
  rwa [List.length_range] at hle

/-- One more request to the allocator. -/
theorem requested (h : Inv cfg s chains) : Inv cfg { s with allocs := s.allocs + 1 } chains :=
  ⟨h.chained, fun i hi => Nat.lt_succ_of_lt (h.allocated i hi), h.pos, h.real, h.size_eq⟩

/-- Keys and values do not matter. -/
theorem withCells (h : Inv cfg s chains) (keys : Cells ℕ K) (values : Cells ℕ V) :
    Inv cfg { s with keys := keys, values := values } chains :=
  ⟨h.chained, h.allocated, h.pos, h.real, h.size_eq⟩

end Inv

/-! ## Searching -/

/-- The first node of a chain with an equal key. -/
structure FoundAt (cfg : ChainConfig w K V) (s : ChainMap w K V) (key : K) (chain as : List ℕ)
    (node : ℕ) (bs : List ℕ) : Prop where
  chain_eq : chain = as ++ node :: bs
  before : ∀ i ∈ as, cfg.hashPolicy.equal (s.keys.contents i) key = false
  equal : cfg.hashPolicy.equal (s.keys.contents node) key = true

/-- No node of a chain has an equal key. -/
def Missing (cfg : ChainConfig w K V) (s : ChainMap w K V) (key : K) (chain : List ℕ) : Prop :=
  ∀ i ∈ chain, cfg.hashPolicy.equal (s.keys.contents i) key = false

/-- The loop of `chain_find` over a chain. -/
theorem findLoop_cases (cfg : ChainConfig w K V) (key : K) {p : Option ℕ}
    (hwalk : Seg s.next p cs none) {rounds : ℕ} (hrounds : cs.length ≤ rounds) (prev : Option ℕ) :
    (∃ as node bs, FoundAt cfg s key cs as node bs ∧
      findLoop cfg s key rounds prev p = some (some node, as.getLast?.or prev)) ∨
    Missing cfg s key cs ∧
      findLoop cfg s key rounds prev p = some (none, cs.getLast?.or prev) := by
  induction cs generalizing p rounds prev with
  | nil =>
    obtain rfl : p = none := hwalk
    refine .inr ⟨List.forall_mem_nil _, ?_⟩
    cases rounds <;> rfl
  | cons c cs ih =>
    obtain ⟨rfl, hrest⟩ := hwalk
    have hlast : ∀ as : List ℕ, (c :: as).getLast?.or prev = as.getLast?.or (some c) := by
      intro as
      rw [List.getLast?_cons, Option.or_some]
      rfl
    cases rounds with
    | zero => cases hrounds
    | succ rounds =>
      rw [findLoop]
      by_cases hequal : cfg.hashPolicy.equal (s.keys.contents c) key = true
      · exact .inl ⟨[], c, cs, ⟨rfl, List.forall_mem_nil _, hequal⟩, if_pos hequal⟩
      · rw [if_neg hequal]
        rw [Bool.not_eq_true] at hequal
        rcases ih hrest (Nat.le_of_succ_le_succ hrounds) (some c) with
          ⟨as, node, bs, hfound, heq⟩ | ⟨hmissing, heq⟩
        · refine .inl ⟨c :: as, node, bs, ⟨?_, ?_, hfound.equal⟩, ?_⟩
          · rw [hfound.chain_eq, List.cons_append]
          · rintro i (_ | ⟨_, hi⟩)
            · exact hequal
            · exact hfound.before i hi
          · rw [hlast, heq]
        · refine .inr ⟨?_, ?_⟩
          · rintro i (_ | ⟨_, hi⟩)
            · exact hequal
            · exact hmissing i hi
          · rw [hlast, heq]

/-- **`chain_find`** in a bucket. -/
theorem chainFind_cases (h : Inv cfg s chains) (hb : b < s.bucketCount.toNat) (key : K) :
    (∃ as node bs, FoundAt cfg s key (chains b) as node bs ∧
      chainFind cfg s b key = some (some node, as.getLast?)) ∨
    Missing cfg s key (chains b) ∧ ∃ prev, chainFind cfg s b key = some (none, prev) := by
  rcases findLoop_cases cfg key (h.chained.walk b hb) (h.length_le hb) none with
    ⟨as, node, bs, hfound, heq⟩ | ⟨hmissing, heq⟩
  · refine .inl ⟨as, node, bs, hfound, ?_⟩
    rw [Option.or_none] at heq
    exact heq
  · exact .inr ⟨hmissing, _, heq⟩

/-! ## Adding and dropping nodes -/

/-- A request that changes no chain, and no key or value in one. -/
structure Keeps (cfg : ChainConfig w K V) (s u : ChainMap w K V) (chains : ℕ → List ℕ) : Prop where
  inv : Inv cfg u chains
  count : u.bucketCount = s.bucketCount
  allocs : u.allocs = s.allocs + 1
  frame : ∀ i ∈ stored s chains, u.entry i = s.entry i
  holding : Holding s (stored s chains) → Holding u (stored u chains)

/-- An operation that puts a node in front of the chain of bucket `b`. -/
structure Adds (cfg : ChainConfig w K V) (s u : ChainMap w K V) (chains : ℕ → List ℕ) (b : ℕ)
    (key : K) (value : V) : Prop where
  inv : Inv cfg u (Function.update chains b (s.allocs :: chains b))
  count : u.bucketCount = s.bucketCount
  allocs : u.allocs = s.allocs + 1
  granted : cfg.allocRaw s.allocs cfg.nodeBytes = .ok
  frame : ∀ i ∈ stored s chains, u.entry i = s.entry i
  entry : cfg.keyPolicy.Faithful → cfg.valuePolicy.Faithful → u.entry s.allocs = (key, value)
  holding : Holding s (stored s chains) →
    Holding u (stored u (Function.update chains b (s.allocs :: chains b)))

/-- An operation that takes a node out of the chain of bucket `b`. -/
structure Drops (cfg : ChainConfig w K V) (s u : ChainMap w K V) (chains : ℕ → List ℕ) (b : ℕ)
    (as bs : List ℕ) : Prop where
  inv : Inv cfg u (Function.update chains b (as ++ bs))
  count : u.bucketCount = s.bucketCount
  allocs : u.allocs = s.allocs
  frame : ∀ i ∈ stored u (Function.update chains b (as ++ bs)), u.entry i = s.entry i
  holding : Holding s (stored s chains) → Holding u (stored u (Function.update chains b (as ++ bs)))

/-- Nothing but the node with number `s.allocs` was written. -/
structure Touches (s u : ChainMap w K V) : Prop where
  buckets : u.buckets = s.buckets
  count : u.bucketCount = s.bucketCount
  size : u.size = s.size
  allocs : u.allocs = s.allocs + 1
  next : ∀ i ≠ s.allocs, u.next i = s.next i
  entry : ∀ i ≠ s.allocs, u.entry i = s.entry i

theorem Touches.ne_of_mem (h : Inv cfg s chains) {i : ℕ} (hi : i ∈ stored s chains) :
    i ≠ s.allocs := (h.allocated i hi).ne

theorem Touches.inv (ht : Touches s u) (h : Inv cfg s chains) : Inv cfg u chains := by
  obtain ⟨hbuckets, hcount, hsize, hallocs, hnext, -⟩ := ht
  refine ⟨?_, fun i hi => ?_, ?_, ?_, ?_⟩
  · rw [hbuckets, hcount]
    exact h.chained.congr fun i hi => hnext i (Touches.ne_of_mem h hi)
  · rw [stored, hcount] at hi
    rw [hallocs]
    exact Nat.lt_succ_of_lt (h.allocated i hi)
  · rw [hcount]
    exact h.pos
  · rw [hcount]
    exact h.real
  · rw [hsize, h.size_eq, stored, stored, hcount]

/-- **`alloc_chain_node`**: a new node with the key and the value, or a failure that leaves no
object behind. -/
theorem allocChainNode_cases (cfg : ChainConfig w K V) (s : ChainMap w K V) (key : K) (value : V) :
    ∃ u, Touches s u ∧
      ((allocChainNode cfg s key value = (.ok s.allocs, u) ∧
          cfg.allocRaw s.allocs cfg.nodeBytes = .ok ∧
          (cfg.keyPolicy.Faithful → cfg.valuePolicy.Faithful → u.entry s.allocs = (key, value)) ∧
          ∀ xs, s.allocs ∉ xs → Holding s xs → Holding u (s.allocs :: xs)) ∨
        ∃ st, allocChainNode cfg s key value = (.error st, u) ∧ st ≠ .ok ∧
          (cfg.keyPolicy.NonFailing → cfg.valuePolicy.NonFailing →
            cfg.allocRaw s.allocs cfg.nodeBytes = st) ∧
          ∀ xs, s.allocs ∉ xs → Holding s xs → Holding u xs) := by
  have hkey := Cells.copied cfg.keyPolicy s.keys s.allocs key
  have hvalue := Cells.copied cfg.valuePolicy s.values s.allocs value
  have hnext : ∀ i ≠ s.allocs, Function.update s.next s.allocs none i = s.next i :=
    fun i hi => Function.update_of_ne hi _ _
  -- the node of a request is named after its number, so that it is none of the nodes before
  have hcons : ∀ (xs : List ℕ), insert s.allocs {i | i ∈ xs} = {i | i ∈ s.allocs :: xs} :=
    fun xs => (Ledger.setOf_mem_perm (List.Perm.refl _)).symm
  by_cases halloc : cfg.allocRaw s.allocs cfg.nodeBytes = .ok
  · by_cases hkeyOk : (s.keys.copyConstruct cfg.keyPolicy s.allocs key).1 = .ok
    · by_cases hvalueOk : (s.values.copyConstruct cfg.valuePolicy s.allocs value).1 = .ok
      · -- a new node
        refine ⟨{ s with
            allocs := s.allocs + 1
            next := Function.update s.next s.allocs none
            keys := (s.keys.copyConstruct cfg.keyPolicy s.allocs key).2
            values := (s.values.copyConstruct cfg.valuePolicy s.allocs value).2 },
          ⟨rfl, rfl, rfl, rfl, hnext, fun i hi => ?_⟩, .inl ⟨?_, halloc, fun hk hv => ?_, fun xs hxs h => ?_⟩⟩
        · exact Prod.ext (hkey.frame i hi) (hvalue.frame i hi)
        · simp only [allocChainNode, halloc, hkeyOk, hvalueOk, ne_eq, not_true_eq_false, if_false]
        · exact Prod.ext (hkey.value hkeyOk hk) (hvalue.value hvalueOk hv)
        · refine ⟨?_, ?_⟩
          · rw [← hcons]
            exact hkey.constructed hkeyOk _ h.keys hxs
          · rw [← hcons]
            exact hvalue.constructed hvalueOk _ h.values hxs
      · -- the value could not be copied: the key is destroyed again
        refine ⟨{ s with
            allocs := s.allocs + 1
            next := Function.update s.next s.allocs none
            keys := (s.keys.copyConstruct cfg.keyPolicy s.allocs key).2.destroy cfg.keyPolicy s.allocs
            values := (s.values.copyConstruct cfg.valuePolicy s.allocs value).2 },
          ⟨rfl, rfl, rfl, rfl, hnext, fun i hi => ?_⟩,
          .inr ⟨_, ?_, hvalueOk, fun _ hv => absurd (hvalue.ok_of_nonFailing hv) hvalueOk,
            fun xs hxs h => ⟨?_, hvalue.failed hvalueOk _ h.values hxs⟩⟩⟩
        · refine Prod.ext ?_ (hvalue.frame i hi)
          exact (Function.update_of_ne hi _ _).trans (hkey.frame i hi)
        · simp only [allocChainNode, halloc, hkeyOk, hvalueOk, ne_eq, not_true_eq_false,
            not_false_eq_true, if_false, if_true]
        · have hheld := hkey.constructed hkeyOk _ h.keys hxs
          rw [hcons] at hheld
          exact hheld.destroy_head hxs
    · -- the key could not be copied
      refine ⟨{ s with
          allocs := s.allocs + 1
          next := Function.update s.next s.allocs none
          keys := (s.keys.copyConstruct cfg.keyPolicy s.allocs key).2 },
        ⟨rfl, rfl, rfl, rfl, hnext, fun i hi => Prod.ext (hkey.frame i hi) rfl⟩,
        .inr ⟨_, ?_, hkeyOk, fun hk _ => absurd (hkey.ok_of_nonFailing hk) hkeyOk,
          fun xs hxs h => ⟨hkey.failed hkeyOk _ h.keys hxs, h.values⟩⟩⟩
      simp only [allocChainNode, halloc, hkeyOk, ne_eq, not_true_eq_false, not_false_eq_true,
        if_false, if_true]
  · -- no memory for the node: nothing was copied
    refine ⟨{ s with allocs := s.allocs + 1 },
      ⟨rfl, rfl, rfl, rfl, fun _ _ => rfl, fun _ _ => rfl⟩,
      .inr ⟨_, ?_, halloc, fun _ _ => rfl, fun xs _ h => ⟨h.keys, h.values⟩⟩⟩
    simp only [allocChainNode, halloc, ne_eq, not_false_eq_true, if_true]

/-- **`addNode`**: a node in front of the chain, or a failure that changes nothing that is
stored. -/
theorem addNode_cases (h : Inv cfg s chains) (hb : b < s.bucketCount.toNat) (key : K) (value : V) :
    ∃ st u, addNode cfg s b key value = (st, u) ∧
      (st = .ok ∧ Adds cfg s u chains b key value ∨
        st ≠ .ok ∧ Keeps cfg s u chains ∧
          (cfg.keyPolicy.NonFailing → cfg.valuePolicy.NonFailing →
            cfg.allocRaw s.allocs cfg.nodeBytes = st)) := by
  obtain ⟨t, ht, ⟨heq, hgranted, hentry, hholding⟩ | ⟨st, heq, hst, hfailed, hholding⟩⟩ :=
    allocChainNode_cases cfg s key value
  · have htinv := ht.inv h
    have hnotMem : s.allocs ∉ stored t chains := by
      rw [stored, ht.count]
      exact h.notMem
    rw [← ht.count] at hb
    have hpush := htinv.chained.push hb hnotMem
    have hperm := nodes_push_perm hb chains s.allocs
    have hadd : addNode cfg s b key value = (.ok,
        { t with
          next := Function.update t.next s.allocs (t.buckets b)
          buckets := Function.update t.buckets b (some s.allocs)
          size := t.size + 1 }) := by
      simp only [addNode, heq]
    refine ⟨_, _, hadd, .inl ⟨rfl, ⟨⟨hpush, fun i hi => ?_, htinv.pos, htinv.real, ?_⟩, ht.count,
      ht.allocs, hgranted, fun i hi => ht.entry i (Touches.ne_of_mem h hi), hentry,
      fun hheld => ?_⟩⟩⟩
    · show i < t.allocs
      rcases List.mem_cons.mp (hperm.mem_iff.mp hi) with rfl | hi
      · rw [ht.allocs]
        exact Nat.lt_succ_self _
      · exact htinv.allocated i hi
    · show t.size + 1 = _
      rw [htinv.size_eq]
      exact hperm.length_eq.symm
    · have hnew := hholding _ h.notMem hheld
      rw [stored, ← ht.count] at hnew
      have hall := hnew.perm hperm.symm
      exact ⟨hall.keys, hall.values⟩
  · have hadd : addNode cfg s b key value = (st, t) := by
      simp only [addNode, heq]
    refine ⟨_, _, hadd, .inr ⟨hst, ⟨ht.inv h, ht.count, ht.allocs,
      fun i hi => ht.entry i (Touches.ne_of_mem h hi), fun hheld => ?_⟩, hfailed⟩⟩
    rw [stored, ht.count]
    exact hholding _ h.notMem hheld

/-- **`dropNode`** of a node of a chain, given the one before it. -/
theorem dropNode_cases (h : Inv cfg s chains) (hb : b < s.bucketCount.toNat)
    (hchain : chains b = as ++ node :: bs) :
    Drops cfg s (dropNode cfg s b node as.getLast?) chains b as bs := by
  have hunlink := h.chained.unlink hb hchain
  have hperm := nodes_unlink_perm hb hchain
  have hnotMem : node ∉ stored s (Function.update chains b (as ++ bs)) :=
    (List.nodup_cons.mp (hperm.nodup_iff.mp h.chained.nodup)).1
  have heq : dropNode cfg s b node as.getLast? =
      { s with
        next := setNext s.next as.getLast? (s.next node)
        buckets := Function.update s.buckets b (setStart (s.buckets b) as.getLast? (s.next node))
        keys := s.keys.destroy cfg.keyPolicy node
        values := s.values.destroy cfg.valuePolicy node
        size := s.size - 1 } := by
    cases as.getLast? with
    | none => rfl
    | some prev =>
      have hself : Function.update s.buckets b
          (setStart (s.buckets b) (some prev) (s.next node)) = s.buckets :=
        Function.update_eq_self b s.buckets
      rw [hself]
      rfl
  rw [heq]
  refine ⟨⟨hunlink, fun i hi => ?_, h.pos, h.real, ?_⟩, rfl, rfl, fun i hi => ?_,
    fun hheld => ?_⟩
  · exact h.allocated i (hperm.mem_iff.mpr (List.mem_cons_of_mem node hi))
  · show s.size - 1 = _
    rw [h.size_eq, stored, hperm.length_eq, List.length_cons, Nat.add_sub_cancel]
  · have hne : i ≠ node := by
      rintro rfl
      exact hnotMem hi
    exact Prod.ext (Function.update_of_ne hne _ _) (Function.update_of_ne hne _ _)
  · exact ⟨hheld.keys.destroy_perm hperm hnotMem, hheld.values.destroy_perm hperm hnotMem⟩

/-- **`chain_put`**: a new value in the node with an equal key, or else a new node. -/
theorem chainPut_cases (h : Inv cfg s chains) (key : K) (value : V) :
    ∃ st u, chainPut cfg s key value = some (st, u) ∧
      ((∃ as node bs, FoundAt cfg s key (chains (bucketIndex cfg s.bucketCount key)) as node bs ∧
          st = .ok ∧ u = { s with values := s.values.copyAssign cfg.valuePolicy node value }) ∨
        Missing cfg s key (chains (bucketIndex cfg s.bucketCount key)) ∧
          (st = .ok ∧ Adds cfg s u chains (bucketIndex cfg s.bucketCount key) key value ∨
            st ≠ .ok ∧ Keeps cfg s u chains ∧
              (cfg.keyPolicy.NonFailing → cfg.valuePolicy.NonFailing →
                cfg.allocRaw s.allocs cfg.nodeBytes = st))) := by
  have hb := h.bucketIndex_lt key
  rcases chainFind_cases h hb key with ⟨as, node, bs, hfound, heq⟩ | ⟨hmissing, prev, heq⟩
  · refine ⟨_, _, ?_, .inl ⟨as, node, bs, hfound, rfl, rfl⟩⟩
    simp only [chainPut, heq, Option.map_some]
  · obtain ⟨st, u, hadd, hcases⟩ := addNode_cases h hb key value
    refine ⟨st, u, ?_, .inr ⟨hmissing, hcases⟩⟩
    simp only [chainPut, heq, Option.map_some, hadd]

/-- **`chain_remove`**: the node with an equal key is taken out, if there is one. -/
theorem chainRemove_cases (h : Inv cfg s chains) (key : K) :
    (∃ as node bs u, FoundAt cfg s key (chains (bucketIndex cfg s.bucketCount key)) as node bs ∧
        chainRemove cfg s key = some (.ok, u) ∧
        Drops cfg s u chains (bucketIndex cfg s.bucketCount key) as bs) ∨
      Missing cfg s key (chains (bucketIndex cfg s.bucketCount key)) ∧
        chainRemove cfg s key = some (.notFound, s) := by
  have hb := h.bucketIndex_lt key
  rcases chainFind_cases h hb key with ⟨as, node, bs, hfound, heq⟩ | ⟨hmissing, prev, heq⟩
  · refine .inl ⟨as, node, bs, _, hfound, ?_, dropNode_cases h hb hfound.chain_eq⟩
    simp only [chainRemove, heq, Option.map_some]
  · refine .inr ⟨hmissing, ?_⟩
    simp only [chainRemove, heq, Option.map_some]

/-! ## Growing -/

/-- The loop of `chain_rehash` over one chain moves its nodes to the new chains. -/
theorem rehashChain_eq (cfg : ChainConfig w K V) (s : ChainMap w K V) {newCount : BitVec w}
    (hpos : 0 < newCount.toNat) {newBuckets next : ℕ → Option ℕ} {p : Option ℕ} {xs : List ℕ}
    (hchained : Chained next newBuckets newCount.toNat chains) (hwalk : Seg next p xs none)
    (hnodup : xs.Nodup) (hout : ∀ x ∈ xs, x ∉ nodes newCount.toNat chains) {rounds : ℕ}
    (hrounds : xs.length ≤ rounds) :
    ∃ newBuckets' next', rehashChain cfg s newCount rounds newBuckets next p =
        some (newBuckets', next') ∧
      Chained next' newBuckets' newCount.toNat
        (distribute (fun node => bucketIndex cfg newCount (s.keys.contents node)) xs chains) ∧
      ∀ i ∉ xs, next' i = next i := by
  induction xs generalizing newBuckets next p chains rounds with
  | nil =>
    obtain rfl : p = none := hwalk
    refine ⟨newBuckets, next, ?_, hchained, fun _ _ => rfl⟩
    cases rounds <;> rfl
  | cons x xs ih =>
    obtain ⟨rfl, hrest⟩ := hwalk
    obtain ⟨hx, hnodup⟩ := List.nodup_cons.mp hnodup
    cases rounds with
    | zero => cases hrounds
    | succ rounds =>
      have hindex : bucketIndex cfg newCount (s.keys.contents x) < newCount.toNat :=
        Nat.mod_lt _ hpos
      have hpush := hchained.push hindex (hout x List.mem_cons_self)
      have hwalk' := (seg_update hx (newBuckets (bucketIndex cfg newCount (s.keys.contents x)))).mpr
        hrest
      have hout' : ∀ y ∈ xs, y ∉ nodes newCount.toNat (Function.update chains
          (bucketIndex cfg newCount (s.keys.contents x))
          (x :: chains (bucketIndex cfg newCount (s.keys.contents x)))) := by
        intro y hy hmem
        rcases List.mem_cons.mp ((nodes_push_perm hindex chains x).mem_iff.mp hmem) with rfl | hmem
        · exact hx hy
        · exact hout y (List.mem_cons_of_mem x hy) hmem
      obtain ⟨newBuckets', next', heq, hchained', hframe⟩ :=
        ih hpush hwalk' hnodup hout' (Nat.le_of_succ_le_succ hrounds)
      refine ⟨newBuckets', next', heq, hchained', fun i hi => ?_⟩
      rw [List.mem_cons, not_or] at hi
      exact (hframe i hi.2).trans (Function.update_of_ne hi.1 _ _)

/-- The loop of `chain_rehash` over the remaining buckets moves all their nodes. -/
theorem rehashBuckets_eq (cfg : ChainConfig w K V) (s : ChainMap w K V) {newCount : BitVec w}
    (hpos : 0 < newCount.toNat) {newBuckets next : ℕ → Option ℕ} {is : List ℕ}
    (hchained : Chained next newBuckets newCount.toNat chains')
    (hwalk : ∀ i ∈ is, Seg next (s.buckets i) (chains i) none)
    (hrounds : ∀ i ∈ is, (chains i).length ≤ s.rounds) (hnodup : (is.flatMap chains).Nodup)
    (hout : ∀ x ∈ is.flatMap chains, x ∉ nodes newCount.toNat chains') :
    ∃ newBuckets' next', rehashBuckets cfg s newCount is newBuckets next =
        some (newBuckets', next') ∧
      Chained next' newBuckets' newCount.toNat
        (distribute (fun node => bucketIndex cfg newCount (s.keys.contents node))
          (is.flatMap chains) chains') := by
  induction is generalizing newBuckets next chains' with
  | nil => exact ⟨newBuckets, next, rfl, hchained⟩
  | cons i is ih =>
    rw [List.flatMap_cons] at hnodup hout ⊢
    obtain ⟨hnodupChain, hnodupRest, hdisj⟩ := List.nodup_append.mp hnodup
    obtain ⟨newBuckets₁, next₁, heq, hchained₁, hframe⟩ :=
      rehashChain_eq cfg s hpos hchained (hwalk i List.mem_cons_self) hnodupChain
        (fun x hx => hout x (List.mem_append_left _ hx)) (hrounds i List.mem_cons_self)
    have hindex : ∀ x ∈ chains i,
        bucketIndex cfg newCount (s.keys.contents x) < newCount.toNat := fun _ _ => Nat.mod_lt _ hpos
    have hmoved := nodes_distribute hindex chains'
    -- the remaining chains are not touched
    have hwalk₁ : ∀ j ∈ is, Seg next₁ (s.buckets j) (chains j) none := by
      intro j hj
      refine (seg_congr fun x hx => ?_).mp (hwalk j (List.mem_cons_of_mem i hj))
      refine (hframe x fun hmem => ?_).symm
      exact hdisj x hmem x (List.mem_flatMap.mpr ⟨j, hj, hx⟩) rfl
    obtain ⟨newBuckets', next', heq', hchained''⟩ := ih hchained₁ hwalk₁
      (fun j hj => hrounds j (List.mem_cons_of_mem i hj)) hnodupRest fun x hx hmem => by
        rcases List.mem_append.mp (hmoved.mem_iff.mp hmem) with hmem | hmem
        · exact hdisj x hmem x hx rfl
        · exact hout x (List.mem_append_right _ hx) hmem
    refine ⟨newBuckets', next', ?_, ?_⟩
    · simp only [rehashBuckets, heq, heq']
    · rw [distribute_append]
      exact hchained''

/-- An operation that moves the nodes to twice as many chains, by the hashes of their keys. -/
structure Relinks (cfg : ChainConfig w K V) (s u : ChainMap w K V)
    (chains chains' : ℕ → List ℕ) : Prop where
  inv : Inv cfg u chains'
  count : u.bucketCount = growBucketCount s.bucketCount
  allocs : u.allocs = s.allocs + 1
  granted : cfg.allocRaw s.allocs (growBucketCount s.bucketCount * cfg.pointerSize) = .ok
  stored : (stored u chains').Perm (stored s chains)
  homed : ∀ i < u.bucketCount.toNat, ∀ node ∈ chains' i,
    bucketIndex cfg u.bucketCount (u.keys.contents node) = i
  keys : u.keys = s.keys
  values : u.values = s.values

/-- Doubling a count of buckets that fit into memory. -/
theorem growBucketCount_real (cfg : ChainConfig w K V) {count : BitVec w} (hpos : 0 < count.toNat)
    (hreal : count.toNat * cfg.pointerSize.toNat < 2 ^ (w - 1)) :
    growBucketCount count ≠ count ∧ 0 < (growBucketCount count).toNat ∧
      (growBucketCount count * cfg.pointerSize).toNat =
        (growBucketCount count).toNat * cfg.pointerSize.toNat := by
  have hsize := cfg.pointerSize_pos
  have hle : count.toNat ≤ count.toNat * cfg.pointerSize.toNat := Nat.le_mul_of_pos_right _ hsize
  have hw : 1 < w := by
    by_contra hw
    rw [Nat.sub_eq_zero_of_le (not_lt.mp hw)] at hreal
    omega
  have hpow : 2 ^ w = 2 * 2 ^ (w - 1) := by
    rw [← pow_succ', Nat.sub_add_cancel hw.le]
  have hfour : 2 ^ 2 ≤ 2 ^ w := Nat.pow_le_pow_right (by norm_num) hw
  have hgrows : growBucketCount count ≠ count := by
    have hne : count ≠ 0 := by
      rintro rfl
      simp at hpos
    have htwo : (2 : BitVec w).toNat = 2 :=
      (BitVec.toNat_ofNat 2 w).trans (Nat.mod_eq_of_lt (by omega))
    have hsmall : ¬ BitVec.allOnes w / 2 < count := by
      rw [BitVec.lt_def, BitVec.toNat_udiv, BitVec.toNat_allOnes, htwo]
      omega
    unfold growBucketCount
    rw [if_neg hne, if_neg hsmall]
    intro heq
    have hdouble := congrArg BitVec.toNat heq
    rw [BitVec.toNat_mul, htwo, Nat.mod_eq_of_lt (by omega)] at hdouble
    omega
  have hdouble := OpenMap.toNat_growBucketCount hpos hgrows
  refine ⟨hgrows, by omega, ?_⟩
  rw [BitVec.toNat_mul, hdouble, Nat.mul_assoc]
  exact Nat.mod_eq_of_lt (by omega)

/-- **`maybe_grow`**: the nodes move to twice as many chains, or there is no memory. -/
theorem maybeGrow_cases (h : Inv cfg s chains) :
    (∃ u chains', maybeGrow cfg s = some (.ok, u) ∧ Relinks cfg s u chains chains') ∨
      ∃ st, st ≠ .ok ∧
        cfg.allocRaw s.allocs (growBucketCount s.bucketCount * cfg.pointerSize) = st ∧
        maybeGrow cfg s = some (st, { s with allocs := s.allocs + 1 }) := by
  obtain ⟨hgrows, hpos, hbytes⟩ := growBucketCount_real cfg h.pos h.real
  have hrehash : maybeGrow cfg s = chainRehash cfg s (growBucketCount s.bucketCount) := if_neg hgrows
  rw [hrehash]
  generalize hcount : growBucketCount s.bucketCount = newCount at hpos hbytes
  by_cases halloc : cfg.allocRaw s.allocs (newCount * cfg.pointerSize) = .ok
  · have hreal := cfg.allocRaw_real _ _ halloc
    rw [hbytes] at hreal
    have hempty : nodes newCount.toNat (fun _ => ([] : List ℕ)) = [] := by simp [nodes]
    have hinv := h.requested
    have hwalk : ∀ i ∈ List.range s.bucketCount.toNat, Seg s.next (s.buckets i) (chains i) none :=
      fun i hi => h.chained.walk i (List.mem_range.mp hi)
    obtain ⟨newBuckets, next, heq, hchained⟩ :=
      rehashBuckets_eq cfg { s with allocs := s.allocs + 1 } hpos
        (chained_empty s.next newCount.toNat) hwalk
        (fun i hi => hinv.length_le (List.mem_range.mp hi)) h.chained.nodup
        (fun x _ hmem => by rw [hempty] at hmem; cases hmem)
    have hindex : ∀ x ∈ stored s chains,
        bucketIndex cfg newCount (s.keys.contents x) < newCount.toNat := fun _ _ => Nat.mod_lt _ hpos
    have hperm := nodes_distribute hindex fun _ => []
    rw [hempty, List.append_nil] at hperm
    refine .inl ⟨{ s with
      allocs := s.allocs + 1
      buckets := newBuckets
      next := next
      bucketCount := newCount }, _, ?_, ⟨⟨hchained, fun i hi => ?_, hpos, hreal, ?_⟩, hcount.symm,
        rfl, hcount ▸ halloc, hperm, fun _ _ node hnode => ?_, rfl, rfl⟩⟩
    · simp only [chainRehash, halloc, heq, ne_eq, not_true_eq_false, if_false, Option.map_some]
    · exact Nat.lt_succ_of_lt (h.allocated i (hperm.mem_iff.mp hi))
    · exact h.size_eq.trans hperm.length_eq.symm
    · rcases mem_distribute.mp hnode with hnode | ⟨-, hindex⟩
      · cases hnode
      · exact hindex
  · refine .inr ⟨_, halloc, rfl, ?_⟩
    simp only [chainRehash, halloc, ne_eq, not_false_eq_true, if_true]

/-! ## Clearing and visiting -/

/-- The loop of `chain_clear` over one chain destroys what is in its nodes. -/
theorem clearChain_eq (cfg : ChainConfig w K V) {p : Option ℕ} {xs ys : List ℕ}
    (hwalk : Seg s.next p xs none) (hnodup : (xs ++ ys).Nodup) {rounds : ℕ}
    (hrounds : xs.length ≤ rounds) :
    ∃ keys values, clearChain cfg rounds s p = some { s with keys := keys, values := values } ∧
      (Holding s (xs ++ ys) → Holding { s with keys := keys, values := values } ys) := by
  induction xs generalizing p s rounds with
  | nil =>
    obtain rfl : p = none := hwalk
    refine ⟨s.keys, s.values, ?_, fun hheld => hheld⟩
    cases rounds <;> rfl
  | cons x xs ih =>
    obtain ⟨rfl, hrest⟩ := hwalk
    obtain ⟨hx, hnodup⟩ := List.nodup_cons.mp hnodup
    cases rounds with
    | zero => cases hrounds
    | succ rounds =>
      obtain ⟨keys, values, heq, hholding⟩ := ih (s := destroyChainNode cfg s x) hrest hnodup
        (Nat.le_of_succ_le_succ hrounds)
      refine ⟨keys, values, heq, fun hheld => hholding ?_⟩
      exact ⟨hheld.keys.destroy_head hx, hheld.values.destroy_head hx⟩

/-- The loop of `chain_clear` over the remaining buckets. -/
theorem clearBuckets_eq (cfg : ChainConfig w K V) {is : List ℕ}
    (hwalk : ∀ i ∈ is, Seg s.next (s.buckets i) (chains i) none)
    (hrounds : ∀ i ∈ is, (chains i).length ≤ s.rounds) (hnodup : (is.flatMap chains).Nodup)
    (his : is.Nodup) :
    ∃ buckets keys values, clearBuckets cfg is s =
        some { s with buckets := buckets, keys := keys, values := values } ∧
      (∀ i ∈ is, buckets i = none) ∧ (∀ i ∉ is, buckets i = s.buckets i) ∧
      (Holding s (is.flatMap chains) →
        Holding { s with buckets := buckets, keys := keys, values := values } []) := by
  induction is generalizing s with
  | nil => exact ⟨s.buckets, s.keys, s.values, rfl, List.forall_mem_nil _, fun _ _ => rfl, id⟩
  | cons i is ih =>
    rw [List.flatMap_cons] at hnodup ⊢
    obtain ⟨hi, his⟩ := List.nodup_cons.mp his
    obtain ⟨keys, values, heq, hholding⟩ := clearChain_eq cfg (hwalk i List.mem_cons_self) hnodup
      (hrounds i List.mem_cons_self)
    obtain ⟨buckets, keys', values', heq', hnone, hsome, hholding'⟩ :=
      ih (s := { s with
        buckets := Function.update s.buckets i none, keys := keys, values := values })
        (fun j hj => by
          have hne : j ≠ i := by
            rintro rfl
            exact hi hj
          show Seg s.next (Function.update s.buckets i none j) (chains j) none
          rw [Function.update_of_ne hne]
          exact hwalk j (List.mem_cons_of_mem i hj))
        (fun j hj => hrounds j (List.mem_cons_of_mem i hj)) (List.nodup_append.mp hnodup).2.1 his
    refine ⟨buckets, keys', values', ?_, fun j hj => ?_, fun j hj => ?_, fun hheld => ?_⟩
    · simp only [clearBuckets, heq]
      exact heq'
    · rcases List.mem_cons.mp hj with rfl | hj
      · rw [hsome j hi]
        exact Function.update_self ..
      · exact hnone j hj
    · rw [List.mem_cons, not_or] at hj
      rw [hsome j hj.2]
      exact Function.update_of_ne hj.1 _ _
    · have hrest := hholding hheld
      exact hholding' ⟨hrest.keys, hrest.values⟩

/-- **`clear`** empties every chain and destroys what was in the nodes. -/
theorem clear_cases (h : Inv cfg s chains) :
    ∃ u, clear cfg s = some u ∧ Inv cfg u (fun _ => []) ∧ stored u (fun _ => []) = [] ∧
      (Holding s (stored s chains) → Holding u []) ∧ u.bucketCount = s.bucketCount ∧
      u.allocs = s.allocs := by
  have hempty : ∀ n, nodes n (fun _ => ([] : List ℕ)) = [] := fun n => by simp [nodes]
  have hne : s.bucketCount ≠ 0 := by
    intro hzero
    have hpos := h.pos
    rw [hzero] at hpos
    simp at hpos
  obtain ⟨buckets, keys, values, heq, hnone, -, hholding⟩ := clearBuckets_eq cfg
    (fun i hi => h.chained.walk i (List.mem_range.mp hi))
    (fun i hi => h.length_le (List.mem_range.mp hi)) h.chained.nodup List.nodup_range
  refine ⟨{ s with buckets := buckets, keys := keys, values := values, size := 0 }, ?_,
    ⟨⟨fun i hi => hnone i (List.mem_range.mpr hi), ?_⟩, fun i hi => ?_, h.pos, h.real, ?_⟩,
    hempty _, fun hheld => ?_, rfl, rfl⟩
  · simp only [clear, hne, if_false, chainClear, heq, Option.map_some]
  · rw [hempty]
    exact List.nodup_nil
  · rw [stored, hempty] at hi
    cases hi
  · show 0 = (nodes s.bucketCount.toNat fun _ => []).length
    rw [hempty]
    rfl
  · have hnothing := hholding hheld
    exact ⟨hnothing.keys, hnothing.values⟩

/-- The loop of `foreach` over one chain. -/
theorem foreachChain_eq (visit : List (K × V) → Status) {p : Option ℕ} {xs : List ℕ}
    (hwalk : Seg s.next p xs none) {rounds : ℕ} (hrounds : xs.length ≤ rounds)
    (seen : List (K × V)) :
    foreachChain s visit rounds seen p = some (visitLoop visit seen (xs.map s.entry)) := by
  induction xs generalizing p rounds seen with
  | nil =>
    obtain rfl : p = none := hwalk
    cases rounds <;> rfl
  | cons x xs ih =>
    obtain ⟨rfl, hrest⟩ := hwalk
    cases rounds with
    | zero => cases hrounds
    | succ rounds =>
      rw [foreachChain, List.map_cons, visitLoop, ih hrest (Nat.le_of_succ_le_succ hrounds)]
      exact (apply_ite some _ _ _).symm

/-- The loop of `foreach` over the remaining buckets. -/
theorem foreachBuckets_eq (visit : List (K × V) → Status) {is : List ℕ}
    (hwalk : ∀ i ∈ is, Seg s.next (s.buckets i) (chains i) none)
    (hrounds : ∀ i ∈ is, (chains i).length ≤ s.rounds) (seen : List (K × V)) :
    foreachBuckets s visit is seen =
      some (visitLoop visit seen ((is.flatMap chains).map s.entry)) := by
  induction is generalizing seen with
  | nil => rfl
  | cons i is ih =>
    have hrest := ih (fun j hj => hwalk j (List.mem_cons_of_mem i hj))
      fun j hj => hrounds j (List.mem_cons_of_mem i hj)
    rw [foreachBuckets, foreachChain_eq visit (hwalk i List.mem_cons_self)
      (hrounds i List.mem_cons_self), List.flatMap_cons, List.map_append, visitLoop_append,
      visitThen]
    simp only [hrest]
    exact (apply_ite some _ _ _).symm

/-- **`foreach`** visits what is in the nodes of all chains. -/
theorem foreach_eq (h : Inv cfg s chains) (visit : List (K × V) → Status) :
    foreach s visit = some (visitLoop visit [] ((stored s chains).map s.entry)) :=
  foreachBuckets_eq visit (fun i hi => h.chained.walk i (List.mem_range.mp hi))
    (fun _ hi => h.length_le (List.mem_range.mp hi)) []

end ChainMap

end Memkit
