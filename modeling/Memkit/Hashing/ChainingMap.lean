import Memkit.Foundations.Transition
import Memkit.Hashing.ChainingShape
import Memkit.Hashing.FiniteMapReference

/-! # The chaining hash map is a finite map

With a lawful key policy and copies that do not fail, `hashmap_map_core` with chains answers as the
reference finite map.

* **`Stands`** — the map stands for the pairs in its nodes.
* **`stands_call`** — the step of the simulation.
* **`refines_finiteMap`** — the refinement. -/

namespace Memkit

open BucketChains FiniteMap

variable {w : ℕ} {K V : Type*}

namespace ChainMap

variable {cfg : ChainConfig w K V} {s u : ChainMap w K V} {chains chains' : ℕ → List ℕ}
  {xs ys : List (K × V)} {key : K} {value : V} {as bs : List ℕ} {node b : ℕ}

/-- Every node is on the chain of the hash of its key. -/
def Homed (cfg : ChainConfig w K V) (s : ChainMap w K V) (chains : ℕ → List ℕ) : Prop :=
  ∀ i < s.bucketCount.toNat, ∀ node ∈ chains i,
    bucketIndex cfg s.bucketCount (s.keys.contents node) = i

/-- The map stands for the pairs in its nodes, whose keys are not equal. -/
structure Stands (cfg : ChainConfig w K V) (s : ChainMap w K V) (chains : ℕ → List ℕ)
    (xs : List (K × V)) : Prop where
  inv : Inv cfg s chains
  homed : Homed cfg s chains
  distinct : Distinct cfg.hashPolicy.equal xs
  perm : xs.Perm ((stored s chains).map s.entry)

/-- What is asked of the policies: keys compared and hashed lawfully, and plain copies. -/
structure Plain (cfg : ChainConfig w K V) : Prop where
  hash : cfg.hashPolicy.Lawful
  key : cfg.keyPolicy.NonFailing
  value : cfg.valuePolicy.NonFailing

/-- The buckets of a map, and the requests it has made. -/
def memory (s : ChainMap w K V) : MapMemory w := ⟨s.bucketCount, s.allocs⟩

/-! ## Searching -/

/-- A key that is not in its chain is not stored. -/
theorem Stands.forall_of_missing (h : Stands cfg s chains xs) (hlaw : cfg.hashPolicy.Lawful)
    (hmissing : Missing cfg s key (chains (bucketIndex cfg s.bucketCount key))) :
    ∀ x ∈ xs, cfg.hashPolicy.equal x.1 key = false := by
  intro x hx
  obtain ⟨node, hnode, rfl⟩ := List.mem_map.mp (h.perm.mem_iff.mp hx)
  obtain ⟨i, hi, hmem⟩ := mem_nodes.mp hnode
  by_contra hequal
  rw [Bool.not_eq_false] at hequal
  -- equal keys have equal hashes, so the node would be on the chain that was searched
  have hindex : bucketIndex cfg s.bucketCount key = i := by
    rw [← h.homed i hi node hmem, bucketIndex, bucketIndex]
    exact congrArg (fun hash : BitVec w => hash.toNat % s.bucketCount.toNat)
      (hlaw.hash_eq _ _ hequal).symm
  rw [hindex] at hmissing
  exact Bool.eq_false_iff.mp (hmissing node hmem) hequal

/-- The pairs with that of a node of a chain in front. -/
theorem Stands.perm_cons (h : Stands cfg s chains xs) (hb : b < s.bucketCount.toNat)
    (hchain : chains b = as ++ node :: bs) :
    xs.Perm (s.entry node :: (stored s (Function.update chains b (as ++ bs))).map s.entry) :=
  h.perm.trans ((nodes_unlink_perm hb hchain).map s.entry)

/-- **`chain_find`** finds the node of a key that is stored. -/
theorem Stands.chainFind_eq (h : Stands cfg s chains xs) (hlaw : cfg.hashPolicy.Lawful) (key : K) :
    ∃ node prev, chainFind cfg s (bucketIndex cfg s.bucketCount key) key = some (node, prev) ∧
      node.map s.entry = find cfg.hashPolicy.equal xs key := by
  have hb := h.inv.bucketIndex_lt key
  rcases chainFind_cases h.inv hb key with ⟨as, node, bs, hfound, heq⟩ | ⟨hmissing, prev, heq⟩
  · refine ⟨_, _, heq, ?_⟩
    exact (h.distinct.find_eq hlaw (h.perm_cons hb hfound.chain_eq) hfound.equal).symm
  · refine ⟨_, _, heq, ?_⟩
    exact (find_of_forall (h.forall_of_missing hlaw hmissing)).symm

/-! ## Changing -/

/-- An operation that keeps the chains, and the keys and values in them. -/
theorem Stands.keep (h : Stands cfg s chains xs) (hkeeps : Keeps cfg s u chains) :
    Stands cfg u chains xs := by
  have hframe : ∀ i < s.bucketCount.toNat, ∀ node ∈ chains i, u.entry node = s.entry node :=
    fun i hi node hnode => hkeeps.frame node (mem_nodes.mpr ⟨i, hi, hnode⟩)
  refine ⟨hkeeps.inv, fun i hi node hnode => ?_, h.distinct, ?_⟩
  · rw [hkeeps.count] at hi ⊢
    rw [show u.keys.contents node = s.keys.contents node from
      congrArg Prod.fst (hframe i hi node hnode)]
    exact h.homed i hi node hnode
  · rw [stored, hkeeps.count, List.map_congr_left hkeeps.frame]
    exact h.perm

/-- Growth keeps the pairs. -/
theorem Stands.relink (h : Stands cfg s chains xs) (hrelinks : Relinks cfg s u chains chains') :
    Stands cfg u chains' xs := by
  have hentry : u.entry = s.entry := by
    funext node
    rw [entry, entry, hrelinks.keys, hrelinks.values]
  refine ⟨hrelinks.inv, hrelinks.homed, h.distinct, ?_⟩
  rw [hentry]
  exact h.perm.trans (hrelinks.stored.map s.entry).symm

/-- A new node for a key that is not stored. -/
theorem Stands.add (h : Stands cfg s chains xs) (hlaw : cfg.hashPolicy.Lawful)
    (hkey : cfg.keyPolicy.Faithful) (hvalue : cfg.valuePolicy.Faithful)
    (hmissing : Missing cfg s key (chains (bucketIndex cfg s.bucketCount key)))
    (hadds : Adds cfg s u chains (bucketIndex cfg s.bucketCount key) key value) :
    Stands cfg u (Function.update chains (bucketIndex cfg s.bucketCount key)
        (s.allocs :: chains (bucketIndex cfg s.bucketCount key)))
      (FiniteMap.put cfg.hashPolicy.equal xs key value) := by
  have hb := h.inv.bucketIndex_lt key
  have hnone := h.forall_of_missing hlaw hmissing
  have hentry := hadds.entry hkey hvalue
  have hframe : ∀ i < s.bucketCount.toNat, ∀ node ∈ chains i, u.entry node = s.entry node :=
    fun i hi node hnode => hadds.frame node (mem_nodes.mpr ⟨i, hi, hnode⟩)
  rw [put_of_forall hnone]
  refine ⟨hadds.inv, fun i hi node hnode => ?_, distinct_cons.mpr ⟨fun y hy => ?_, h.distinct⟩, ?_⟩
  · rw [hadds.count] at hi ⊢
    -- the new node, or one that was there
    have hcases : node = s.allocs ∧ i = bucketIndex cfg s.bucketCount key ∨ node ∈ chains i := by
      by_cases hib : i = bucketIndex cfg s.bucketCount key
      · rw [hib, Function.update_self, List.mem_cons] at hnode
        rw [hib]
        exact hnode.imp (fun hnode => ⟨hnode, rfl⟩) id
      · rw [Function.update_of_ne hib] at hnode
        exact .inr hnode
    rcases hcases with ⟨rfl, rfl⟩ | hmem
    · rw [show u.keys.contents s.allocs = key from congrArg Prod.fst hentry]
    · rw [show u.keys.contents node = s.keys.contents node from
        congrArg Prod.fst (hframe i hi node hmem)]
      exact h.homed i hi node hmem
  · rw [hlaw.comm]
    exact hnone y hy
  · rw [stored, hadds.count]
    refine List.Perm.trans ?_ ((nodes_push_perm hb chains s.allocs).map u.entry).symm
    rw [List.map_cons, hentry, List.map_congr_left hadds.frame]
    exact h.perm.cons _

/-- A new value for a key that is stored: whatever the copy leaves there. -/
theorem Stands.assign (h : Stands cfg s chains xs) (hlaw : cfg.hashPolicy.Lawful)
    (hfound : FoundAt cfg s key (chains (bucketIndex cfg s.bucketCount key)) as node bs)
    (value : V) :
    Stands cfg { s with values := s.values.copyAssign cfg.valuePolicy node value } chains
      (FiniteMap.put cfg.hashPolicy.equal xs key
        (cfg.valuePolicy.copyAssign s.values.copies (s.values.contents node) value)) := by
  have hb := h.inv.bucketIndex_lt key
  have hperm := h.perm_cons hb hfound.chain_eq
  have hput := h.distinct.put_perm hlaw hperm hfound.equal
    (cfg.valuePolicy.copyAssign s.values.copies (s.values.contents node) value)
  have hdistinct := h.distinct.perm hlaw hperm
  have hnodes := nodes_unlink_perm hb hfound.chain_eq
  have hnotMem := (List.nodup_cons.mp (hnodes.nodup_iff.mp h.inv.chained.nodup)).1
  refine ⟨h.inv.withCells _ _, h.homed, ?_, hput.trans ?_⟩
  · refine Distinct.perm ?_ hlaw hput.symm
    rw [distinct_cons] at hdistinct ⊢
    exact hdistinct
  · refine List.Perm.trans (List.Perm.of_eq ?_) (hnodes.map _).symm
    rw [List.map_cons]
    congr 1
    · show _ = (s.keys.contents node, Function.update s.values.contents node _ node)
      rw [Function.update_self]
      rfl
    · refine List.map_congr_left fun i hi => ?_
      have hne : i ≠ node := by
        rintro rfl
        exact hnotMem hi
      exact Prod.ext rfl (Function.update_of_ne hne _ _).symm

/-- A key that is taken out. -/
theorem Stands.drop (h : Stands cfg s chains xs) (hlaw : cfg.hashPolicy.Lawful)
    (hfound : FoundAt cfg s key (chains (bucketIndex cfg s.bucketCount key)) as node bs)
    (hdrops : Drops cfg s u chains (bucketIndex cfg s.bucketCount key) as bs) :
    ∃ ys, FiniteMap.remove cfg.hashPolicy.equal xs key = (.ok, ys) ∧
      Stands cfg u (Function.update chains (bucketIndex cfg s.bucketCount key) (as ++ bs)) ys := by
  have hb := h.inv.bucketIndex_lt key
  have hperm := h.perm_cons hb hfound.chain_eq
  obtain ⟨ys, hremove, hys⟩ := h.distinct.remove_perm hlaw hperm hfound.equal
  have hcount : u.bucketCount.toNat = s.bucketCount.toNat := congrArg BitVec.toNat hdrops.count
  refine ⟨ys, hremove, hdrops.inv, fun i hi node' hnode => ?_, ?_, ?_⟩
  · have hentry := hdrops.frame node' (mem_nodes.mpr ⟨i, hi, hnode⟩)
    rw [hcount] at hi
    have hmem : node' ∈ chains i := by
      by_cases hib : i = bucketIndex cfg s.bucketCount key
      · rw [hib, Function.update_self] at hnode
        rw [hib, hfound.chain_eq]
        exact (List.Sublist.append_left (List.sublist_cons_self node bs) as).subset hnode
      · rwa [Function.update_of_ne hib] at hnode
    rw [hdrops.count, show u.keys.contents node' = s.keys.contents node' from
      congrArg Prod.fst hentry]
    exact h.homed i hi node' hmem
  · have hdistinct := h.distinct.perm hlaw hperm
    exact (distinct_cons.mp hdistinct).2.perm hlaw hys.symm
  · rw [List.map_congr_left hdrops.frame, stored, hdrops.count]
    exact hys

/-! ## One call -/

theorem Stands.size_eq (h : Stands cfg s chains xs) : s.size = xs.length := by
  rw [h.inv.size_eq, h.perm.length_eq, List.length_map]

/-- The reference finds a key that is in its chain. -/
theorem Stands.isSome_find (h : Stands cfg s chains xs) (hlaw : cfg.hashPolicy.Lawful)
    (hfound : FoundAt cfg s key (chains (bucketIndex cfg s.bucketCount key)) as node bs) :
    (find cfg.hashPolicy.equal xs key).isSome = true := by
  rw [h.distinct.find_eq hlaw (h.perm_cons (h.inv.bucketIndex_lt key) hfound.chain_eq) hfound.equal]
  rfl

/-- **`chain_put`** places the pair: it needs a node for a new key, and fails if this request is
refused. -/
theorem Stands.places (h : Stands cfg s chains xs) (hplain : Plain cfg) (key : K) (value : V) :
    ∃ st u ys chains', ChainMap.chainPut cfg s key value = some (st, u) ∧
      place cfg xs s.memory key value = (st, ys, u.memory) ∧ Stands cfg u chains' ys := by
  obtain ⟨st, u, heq, hcases⟩ := chainPut_cases h.inv key value
  rcases hcases with ⟨as, node, bs, hfound, rfl, rfl⟩ |
    ⟨hmissing, ⟨rfl, hadds⟩ | ⟨hst, hkeeps, hrefused⟩⟩
  · have hassigned := h.assign hplain.hash hfound value
    rw [hplain.value.copyAssign] at hassigned
    refine ⟨_, _, _, _, heq, ?_, hassigned⟩
    rw [place, if_pos (h.isSome_find hplain.hash hfound)]
    rfl
  · have hnone := find_of_forall (h.forall_of_missing hplain.hash hmissing)
    refine ⟨_, _, _, _, heq, ?_,
      h.add hplain.hash hplain.key.faithful hplain.value.faithful hmissing hadds⟩
    simp [place, hnone, MapMemory.request, memory, hadds.granted, hadds.count, hadds.allocs]
  · -- the node is refused
    have hnone := find_of_forall (h.forall_of_missing hplain.hash hmissing)
    have hstatus := hrefused hplain.key hplain.value
    refine ⟨_, _, _, _, heq, ?_, h.keep hkeeps⟩
    simp [place, hnone, MapMemory.request, memory, hstatus, hst, hkeeps.count, hkeeps.allocs]

/-- **`put`** is the insertion of the reference into the same memory. -/
theorem Stands.put (h : Stands cfg s chains xs) (hplain : Plain cfg) (key : K) (value : V) :
    ∃ st u ys chains', ChainMap.put cfg s (some key) (some value) = some (st, u) ∧
      FiniteMap.insert cfg xs s.memory key value = (st, ys, u.memory) ∧ Stands cfg u chains' ys := by
  have hne : s.bucketCount ≠ 0 := h.inv.bucketCount_ne
  by_cases hgrow : shouldGrow cfg.growable s.bucketCount (BitVec.ofNat w s.size) = true
  · have hgrows : shouldGrow cfg.growable s.memory.buckets (BitVec.ofNat w xs.length) = true := by
      rw [← h.size_eq]
      exact hgrow
    rcases maybeGrow_cases h.inv with ⟨t, chains₁, heq, hrelinks⟩ | ⟨st, hst, hrefused, heq⟩
    · obtain ⟨st, u, ys, chains', heq', hplace, hstands⟩ :=
        (h.relink hrelinks).places hplain key value
      have hgrown : s.memory.grow cfg xs.length = (.ok, t.memory) := by
        rw [MapMemory.grow, if_pos hgrows]
        simp [MapMemory.request, memory, hrelinks.granted, hrelinks.count, hrelinks.allocs]
      refine ⟨st, u, ys, chains', ?_, ?_, hstands⟩
      · simp only [ChainMap.put, hne, if_false, hgrow, if_true, heq, ne_eq, not_true_eq_false, heq']
      · rw [FiniteMap.insert, hgrown]
        exact hplace
    · -- twice the buckets are refused
      have hkept : s.memory.grow cfg xs.length = (st, ⟨s.bucketCount, s.allocs + 1⟩) := by
        rw [MapMemory.grow, if_pos hgrows]
        simp [MapMemory.request, memory, hrefused, hst]
      refine ⟨st, _, xs, chains, ?_, ?_, h.inv.requested, h.homed, h.distinct, h.perm⟩
      · simp only [ChainMap.put, hne, if_false, hgrow, if_true, heq, ne_eq, hst,
          not_false_eq_true]
      · rw [FiniteMap.insert, hkept]
        exact if_pos hst
  · have hstays : s.memory.grow cfg xs.length = (.ok, s.memory) := by
      refine if_neg ?_
      rw [← h.size_eq]
      exact hgrow
    obtain ⟨st, u, ys, chains', heq, hplace, hstands⟩ := h.places hplain key value
    refine ⟨st, u, ys, chains', ?_, ?_, hstands⟩
    · simp only [ChainMap.put, hne, if_false, hgrow, heq]
      rfl
    · rw [FiniteMap.insert, hstays]
      exact hplace

/-- The call answers as a finite map with the same memory may, and the map stands for the pairs
afterwards. -/
def CallAnswers (cfg : ChainConfig w K V) (s : ChainMap w K V) (xs : List (K × V))
    (c : Call K V) : Prop :=
  ∃ reply ys, (ChainMap.call cfg s c).1 = some reply ∧
    Step cfg (xs, s.memory) c reply (ys, (ChainMap.call cfg s c).2.memory) ∧
    ∃ chains', Stands cfg (ChainMap.call cfg s c).2 chains' ys

/-- The two sides of a call that the reference answers. -/
theorem callAnswers_of_eq {c : Call K V} (reply : Reply K V)
    (hcall : ChainMap.call cfg s c = (some reply, u))
    (hreference : callWithin cfg (xs, s.memory) c = (reply, ys, u.memory))
    (hstands : Stands cfg u chains' ys) : CallAnswers cfg s xs c := by
  rw [CallAnswers, hcall]
  exact ⟨_, _, rfl, .of_eq hreference, chains', hstands⟩

/-- **`get`** reads the pair of the reference. -/
theorem Stands.get (h : Stands cfg s chains xs) (hplain : Plain cfg) (key : K) (out : V) :
    CallAnswers cfg s xs (.get (some key) (some out)) := by
  obtain ⟨node, prev, heq, hfind⟩ := h.chainFind_eq hplain.hash key
  cases node with
  | none =>
    refine callAnswers_of_eq (.value .notFound (some out)) ?_ ?_ h
    · simp only [ChainMap.call, ChainMap.get, chainGet, heq, Option.map_some]
    · simp only [callWithin, FiniteMap.call, FiniteMap.get, ← hfind, Option.map_none]
  | some node =>
    -- the copy to the caller is counted, and changes no slot
    have hread : Stands cfg { s with values := { s.values with copies := s.values.copies + 1 } }
        chains xs := ⟨h.inv.withCells _ _, h.homed, h.distinct, h.perm⟩
    refine callAnswers_of_eq (.value .ok (some (s.values.contents node))) ?_ ?_ hread
    · simp only [ChainMap.call, ChainMap.get, chainGet, heq, Option.map_some,
        hplain.value.copyAssign]
    · simp only [callWithin, FiniteMap.call, FiniteMap.get, ← hfind, Option.map_some, entry,
        memory]

/-- **`remove`** takes the pair of the reference out. -/
theorem Stands.remove (h : Stands cfg s chains xs) (hplain : Plain cfg) (key : K) :
    CallAnswers cfg s xs (.remove (some key)) := by
  rcases chainRemove_cases h.inv key with
    ⟨as, node, bs, u, hfound, heq, hdrops⟩ | ⟨hmissing, heq⟩
  · obtain ⟨ys, hremove, hstands⟩ := h.drop hplain.hash hfound hdrops
    refine callAnswers_of_eq (.status .ok) ?_ ?_ hstands
    · simp only [ChainMap.call, ChainMap.remove, heq, replyStatus]
    · simp only [callWithin, FiniteMap.call, hremove, memory, hdrops.count, hdrops.allocs]
  · have hremove := remove_of_forall (h.forall_of_missing hplain.hash hmissing)
    refine callAnswers_of_eq (.status .notFound) ?_ ?_ h
    · simp only [ChainMap.call, ChainMap.remove, heq, replyStatus]
    · simp only [callWithin, FiniteMap.call, hremove]

/-- **`clear`** leaves no pair. -/
theorem Stands.clear (h : Stands cfg s chains xs) : CallAnswers cfg s xs .clear := by
  obtain ⟨u, heq, hinv, hstored, -, hcount, hallocs⟩ := clear_cases h.inv
  have hstands : Stands cfg u (fun _ => []) [] := by
    refine ⟨hinv, ?_, List.Pairwise.nil, ?_⟩
    · intro i _ node hnode
      cases hnode
    · rw [hstored]
      exact List.Perm.refl _
  refine callAnswers_of_eq .done ?_ ?_ hstands
  · simp only [ChainMap.call, heq]
  · simp only [callWithin, FiniteMap.call, memory, hcount, hallocs]

/-- **One call** answers as a finite map with the same memory may. -/
theorem stands_call (h : Stands cfg s chains xs) (hplain : Plain cfg) (c : Call K V) :
    CallAnswers cfg s xs c := by
  cases c with
  | put key value =>
    cases key with
    | none => exact ⟨_, _, rfl, .answers _ _, chains, h⟩
    | some key =>
      cases value with
      | none => exact ⟨_, _, rfl, .answers _ _, chains, h⟩
      | some value =>
        obtain ⟨st, u, ys, chains', heq, hinsert, hstands⟩ := h.put hplain key value
        refine callAnswers_of_eq (.status st) ?_ ?_ hstands
        · simp only [ChainMap.call, heq, replyStatus]
        · simp only [callWithin, hinsert]
  | get key out =>
    cases key with
    | none => exact ⟨_, _, rfl, .answers _ _, chains, h⟩
    | some key =>
      cases out with
      | none => exact ⟨_, _, rfl, .answers _ _, chains, h⟩
      | some out => exact h.get hplain key out
  | remove key =>
    cases key with
    | none => exact ⟨_, _, rfl, .answers _ _, chains, h⟩
    | some key => exact h.remove hplain key
  | contains key =>
    cases key with
    | none => exact ⟨_, _, rfl, .answers _ _, chains, h⟩
    | some key =>
      refine ⟨_, _, ?_, .answers _ _, chains, h⟩
      obtain ⟨node, prev, heq, hfind⟩ := h.chainFind_eq hplain.hash key
      simp only [ChainMap.call, ChainMap.contains, chainContains, heq, Option.map_some, callWithin,
        FiniteMap.call, ← hfind, Option.isSome_map]
  | clear => exact h.clear
  | foreach visit =>
    refine ⟨_, xs, ?_, .visits (xs, s.memory) _ visit h.perm.symm, chains, h⟩
    show (ChainMap.foreach s visit).map _ = _
    rw [foreach_eq h.inv visit]
    rfl

/-! ## Runs -/

/-- What holds of a map that stands for `xs`: no two of its keys are equal, `size_` counts the
pairs, and its buckets hold chains of their nodes, each node once and on the chain that the hash of
its key says. -/
structure Sound (cfg : ChainConfig w K V) (s : ChainMap w K V) (xs : List (K × V)) : Prop where
  distinct : Distinct cfg.hashPolicy.equal xs
  size_eq : s.size = xs.length
  stored : ∃ chains, Chained s.next s.buckets s.bucketCount.toNat chains ∧
    xs.Perm ((nodes s.bucketCount.toNat chains).map s.entry) ∧ Homed cfg s chains

theorem Stands.sound (h : Stands cfg s chains xs) : Sound cfg s xs where
  distinct := h.distinct
  size_eq := h.size_eq
  stored := ⟨chains, h.inv.chained, h.perm, h.homed⟩

theorem stands_init (cfg : ChainConfig w K V) (links : ℕ → Option ℕ) (keyMemory : ℕ → K)
    (valueMemory : ℕ → V) : Stands cfg (init cfg links keyMemory valueMemory) (fun _ => []) [] where
  inv := (inv_init cfg links keyMemory valueMemory).1
  homed := by
    intro i _ node hnode
    cases hnode
  distinct := List.Pairwise.nil
  perm := by
    rw [show ChainMap.stored (init cfg links keyMemory valueMemory) (fun _ => []) = [] by
      simp [ChainMap.stored, nodes]]
    exact List.Perm.refl _

/-- **The chaining hash map is a finite map**: over any calls, growing or not, its answers conform to
the reference map with the same memory, in which an insertion fails exactly if a request that it
makes is refused, and after them it is sound. -/
theorem refines_finiteMap (cfg : ChainConfig w K V) (hplain : Plain cfg) (links : ℕ → Option ℕ)
    (keyMemory : ℕ → K) (valueMemory : ℕ → V) (calls : List (Call K V)) :
    let s := Mealy.final (ChainMap.call cfg) (init cfg links keyMemory valueMemory) calls
    ∃ replies xs, Mealy.outputs (ChainMap.call cfg) (init cfg links keyMemory valueMemory) calls =
        replies.map some ∧
      Mealy.Conforms (Step cfg) ([], ⟨cfg.initialBuckets, 0⟩) calls replies (xs, s.memory) ∧
      Sound cfg s xs := by
  obtain ⟨replies, ⟨xs, m⟩, houtputs, hconforms, ⟨chains, hstands⟩, rfl⟩ :=
    Mealy.conforms_of_simulation some
      (fun s t => (∃ chains, Stands cfg s chains t.1) ∧ t.2 = s.memory)
      (fun s t c hrel => by
        obtain ⟨xs, m⟩ := t
        obtain ⟨⟨chains, h⟩, rfl⟩ := hrel
        obtain ⟨reply, ys, hreply, hstep, hstands⟩ := stands_call h hplain c
        exact ⟨reply, _, hreply, hstep, hstands, rfl⟩)
      (t := ([], ⟨cfg.initialBuckets, 0⟩))
      ⟨⟨_, stands_init cfg links keyMemory valueMemory⟩, rfl⟩ calls
  exact ⟨replies, xs, houtputs, hconforms, hstands.sound⟩

/-- A map of keys modulo eight, in two buckets that may grow; the fifth request for memory is
refused. -/
def octalMap : ChainConfig 16 ℕ ℕ where
  keyPolicy := .bytewise ℕ
  valuePolicy := .bytewise ℕ
  hashPolicy := ⟨fun key => BitVec.ofNat 16 (key % 8), fun a b => a % 8 == b % 8⟩
  growable := true
  allocRaw n bytes := if n = 4 ∨ 2 ^ 15 ≤ bytes.toNat then .oom else .ok
  nodeBytes := 32
  pointerSize := 8
  initialBuckets := 2
  pointerSize_pos := by decide
  initialBuckets_pos := by decide
  initialBuckets_real := by decide
  allocRaw_real := by
    intro n bytes hok
    by_cases hrefused : n = 4 ∨ 2 ^ 15 ≤ bytes.toNat
    · rw [if_pos hrefused] at hok
      cases hok
    · rw [not_or, not_le] at hrefused
      exact hrefused.2

theorem plain_octalMap : Plain octalMap where
  hash := by
    refine ⟨fun a => beq_self_eq_true _, fun a b hab => ?_, fun a b c hab hbc => ?_, fun a b hab => ?_⟩
    · exact beq_iff_eq.mpr (beq_iff_eq.mp hab).symm
    · exact beq_iff_eq.mpr ((beq_iff_eq.mp hab).trans (beq_iff_eq.mp hbc))
    · exact congrArg (BitVec.ofNat 16) (beq_iff_eq.mp hab)
  key := ElementPolicy.nonFailing_bytewise ℕ
  value := ElementPolicy.nonFailing_bytewise ℕ

/-- The map grows twice; the third pair finds no memory after the second growth, and is put in
again; then pairs are replaced, taken out and visited. -/
def octalMapCalls : List (Call ℕ ℕ) :=
  [.put (some 1) (some 10), .put (some 3) (some 30), .put (some 5) (some 50),
    .contains (some 5), .put (some 5) (some 50), .put (some 9) (some 11), .get (some 1) (some 0),
    .foreach fun _ => .ok, .remove (some 11), .remove (some 3),
    .foreach fun seen => if seen.length = 1 then .full else .ok, .clear, .get (some 1) (some 0)]

/-- The map is a finite map in such a run. -/
theorem refines_finiteMap_octalMapCalls :
    Mealy.outputs (ChainMap.call octalMap) (init octalMap (fun _ => some 0) (fun _ => 0) fun _ => 0)
        octalMapCalls =
      [.status .ok, .status .ok, .status .oom, .contains false, .status .ok, .status .ok,
        .value .ok (some 11), .visits .ok [(1, 11), (3, 30), (5, 50)], .status .ok,
        .status .notFound, .visits .full [(1, 11)], .done, .value .notFound (some 0)].map some ∧
    let s := Mealy.final (ChainMap.call octalMap)
      (init octalMap (fun _ => some 0) (fun _ => 0) fun _ => 0) octalMapCalls
    ∃ replies xs,
      Mealy.outputs (ChainMap.call octalMap)
          (init octalMap (fun _ => some 0) (fun _ => 0) fun _ => 0) octalMapCalls =
        replies.map some ∧
      Mealy.Conforms (Step octalMap) ([], ⟨octalMap.initialBuckets, 0⟩) octalMapCalls replies
        (xs, s.memory) ∧
      Sound octalMap s xs :=
  ⟨by decide +kernel,
    refines_finiteMap octalMap plain_octalMap (fun _ => some 0) (fun _ => 0) (fun _ => 0)
      octalMapCalls⟩

end ChainMap

end Memkit
