import Memkit.Hashing.ChainingCopies
import Memkit.Hashing.ChainingMap
import Memkit.Hashing.OpenAddressingUndo

/-! # Updates of stored keys

A put of a key that is stored overwrites its value and needs no memory for that. But `put` decides
about growth before it looks for the key, and gives up if the growth does: near the load limit even
an update asks for twice the buckets.

* **`Updated`** — what an update owes, in each of the layouts.
* **`GrowsInVain`** — the growth that comes first gets no memory.
* **`updates_iff`** — in every run of both layouts. -/

namespace Memkit

open CopyCall

variable {w w' : ℕ} {K V : Type*}

/-! ## Chains -/

namespace ChainMap

open BucketChains FiniteMap

/-- The value of `key` is `value` after the put, and nothing else has changed. -/
structure Updated (cfg : ChainConfig w K V) (s u : ChainMap w K V) (key : K) (value : V) : Prop where
  size : u.size = s.size
  stores : Stores cfg u key value
  others : ∀ other v, cfg.hashPolicy.equal key other = false →
    (Stores cfg u other v ↔ Stores cfg s other v)

/-- A put wants to grow first, and the growth gets no memory. -/
def GrowsInVain (cfg : ChainConfig w K V) (s : ChainMap w K V) : Prop :=
  shouldGrow cfg.growable s.bucketCount (BitVec.ofNat w s.size) = true ∧
    (growBucketCount s.bucketCount = s.bucketCount ∨
      cfg.allocRaw s.allocs (growBucketCount s.bucketCount * cfg.pointerSize) ≠ .ok)

instance (cfg : ChainConfig w K V) (s : ChainMap w K V) : Decidable (GrowsInVain cfg s) :=
  inferInstanceAs (Decidable (_ ∧ (_ ∨ _)))

variable {cfg : ChainConfig w K V} {s u : ChainMap w K V} {chains chains' : ℕ → List ℕ}
  {xs : List (K × V)} {key : K} {value : V}

/-- What a lookup finds in a map that stands for its pairs. -/
theorem Stands.stores_iff (h : Stands cfg s chains xs) (hlaw : cfg.hashPolicy.Lawful) (key : K)
    (v : V) :
    Stores cfg s key v ↔ ∃ x ∈ xs, cfg.hashPolicy.equal x.1 key = true ∧ x.2 = v := by
  obtain ⟨node, prev, heq, hfind⟩ := h.chainFind_eq hlaw key
  constructor
  · rintro ⟨node', prev', heq', rfl⟩
    obtain rfl : node = some node' := (Prod.mk.inj (Option.some.inj (heq.symm.trans heq'))).1
    have hfound : find cfg.hashPolicy.equal xs key = some (s.entry node') := hfind.symm
    exact ⟨_, List.mem_of_find?_eq_some hfound,
      List.find?_some (p := fun x : K × V => cfg.hashPolicy.equal x.1 key) hfound, rfl⟩
  · rintro ⟨x, hx, hequal, rfl⟩
    rw [h.distinct.find_of_mem hlaw hx hequal] at hfind
    obtain ⟨node', rfl, rfl⟩ := Option.map_eq_some_iff.mp hfind
    exact ⟨node', prev, heq, rfl⟩

/-- A map that stands for the pairs with the value of a stored key replaced. -/
theorem Stands.updated (h : Stands cfg s chains xs) (hlaw : cfg.hashPolicy.Lawful)
    {old : V} (hstored : Stores cfg s key old)
    (hput : Stands cfg u chains' (FiniteMap.put cfg.hashPolicy.equal xs key value))
    (hsize : u.size = s.size) : Updated cfg s u key value := by
  obtain ⟨x, hx, hequal, -⟩ := (h.stores_iff hlaw key old).mp hstored
  have hfound : (find cfg.hashPolicy.equal xs key).isSome := by
    rw [h.distinct.find_of_mem hlaw hx hequal]
    rfl
  refine ⟨hsize, (hput.stores_iff hlaw key value).mpr ⟨(x.1, value), ?_, hequal, rfl⟩, ?_⟩
  · exact (mem_put_of_stored hfound).mpr ⟨x, hx, if_pos hequal⟩
  · intro other v hother
    rw [hput.stores_iff hlaw, h.stores_iff hlaw]
    -- a pair of another key is not the one that is replaced
    have hne : ∀ y : K × V, cfg.hashPolicy.equal y.1 other = true →
        ¬ cfg.hashPolicy.equal y.1 key = true := by
      intro y hy hkey
      have hboth := hlaw.trans _ _ _ (hlaw.symm _ _ hkey) hy
      rw [hother] at hboth
      cases hboth
    constructor
    · rintro ⟨y, hy, hyother, rfl⟩
      obtain ⟨z, hz, rfl⟩ := (mem_put_of_stored hfound).mp hy
      split at hyother
      · rename_i hkey
        exact absurd hkey (hne _ hyother)
      · rename_i hkey
        rw [if_neg hkey]
        exact ⟨z, hz, hyother, rfl⟩
    · rintro ⟨y, hy, hyother, rfl⟩
      exact ⟨y, (mem_put_of_stored hfound).mpr ⟨y, hy, if_neg (hne y hyother)⟩, hyother, rfl⟩

/-- **One call** leaves a map that stands for some pairs, whatever the copies do. -/
theorem Stands.call (h : Stands cfg s chains xs) (hlaw : cfg.hashPolicy.Lawful)
    (hkey : cfg.keyPolicy.Faithful) (hvalue : cfg.valuePolicy.Faithful) (c : Call K V) :
    ∃ chains' ys, Stands cfg (ChainMap.call cfg s c).2 chains' ys := by
  -- what `chain_put` does, with or without growth before it
  have hput : ∀ {s : ChainMap w K V} {chains : ℕ → List ℕ}, Stands cfg s chains xs → ∀ key value,
      ∃ st u chains' ys, chainPut cfg s key value = some (st, u) ∧ Stands cfg u chains' ys := by
    intro s chains h key value
    obtain ⟨st, u, heq, hcases⟩ := chainPut_cases h.inv key value
    rcases hcases with ⟨as, node, bs, hfound, rfl, rfl⟩ |
      ⟨hmissing, ⟨rfl, hadds⟩ | ⟨-, hkeeps, -⟩⟩
    · exact ⟨_, _, _, _, heq, h.assign hlaw hfound value⟩
    · exact ⟨_, _, _, _, heq, h.add hlaw hkey hvalue hmissing hadds⟩
    · exact ⟨_, _, _, _, heq, h.keep hkeeps⟩
  cases c with
  | put key value =>
    cases key with
    | none => exact ⟨chains, xs, h⟩
    | some key =>
      cases value with
      | none => exact ⟨chains, xs, h⟩
      | some value =>
        have hne : s.bucketCount ≠ 0 := h.inv.bucketCount_ne
        by_cases hgrow : shouldGrow cfg.growable s.bucketCount (BitVec.ofNat w s.size) = true
        · rcases maybeGrow_cases h.inv with ⟨t, chains₁, heq, hrelinks⟩ | ⟨st, hst, -, heq⟩
          · obtain ⟨st, u, chains', ys, heq', hstands⟩ := hput (h.relink hrelinks) key value
            simp only [ChainMap.call, ChainMap.put, hne, if_false, hgrow, if_true, heq, ne_eq,
              not_true_eq_false, heq', replyStatus]
            exact ⟨chains', ys, hstands⟩
          · simp only [ChainMap.call, ChainMap.put, hne, if_false, hgrow, if_true, heq, ne_eq, hst,
              not_false_eq_true, replyStatus]
            exact ⟨chains, xs, h.inv.requested, h.homed, h.distinct, h.perm⟩
        · obtain ⟨st, u, chains', ys, heq, hstands⟩ := hput h key value
          simp only [ChainMap.call, ChainMap.put, hne, if_false, hgrow, heq, replyStatus]
          exact ⟨chains', ys, hstands⟩
  | get key out =>
    cases key with
    | none => exact ⟨chains, xs, h⟩
    | some key =>
      cases out with
      | none => exact ⟨chains, xs, h⟩
      | some out =>
        obtain ⟨node, prev, heq, -⟩ := h.chainFind_eq hlaw key
        refine ⟨chains, xs, ?_⟩
        simp only [ChainMap.call, ChainMap.get, chainGet, heq, Option.map_some]
        cases node with
        | none => exact h
        | some node => exact ⟨h.inv.withCells _ _, h.homed, h.distinct, h.perm⟩
  | remove key =>
    cases key with
    | none => exact ⟨chains, xs, h⟩
    | some key =>
      rcases chainRemove_cases h.inv key with ⟨as, node, bs, u, hfound, heq, hdrops⟩ | ⟨-, heq⟩
      · obtain ⟨ys, -, hstands⟩ := h.drop hlaw hfound hdrops
        simp only [ChainMap.call, ChainMap.remove, heq, replyStatus]
        exact ⟨_, ys, hstands⟩
      · simp only [ChainMap.call, ChainMap.remove, heq, replyStatus]
        exact ⟨chains, xs, h⟩
  | contains key => exact ⟨chains, xs, h⟩
  | clear =>
    obtain ⟨u, heq, hinv, hstored, -⟩ := clear_cases h.inv
    simp only [ChainMap.call, heq]
    refine ⟨fun _ => [], [], hinv, ?_, List.Pairwise.nil, ?_⟩
    · intro i _ node hnode
      cases hnode
    · rw [hstored]
      exact List.Perm.refl _
  | foreach visit => exact ⟨chains, xs, h⟩

/-- `chain_put` of a stored key, when the copy of the value succeeds. -/
theorem Stands.chainPut_stored (h : Stands cfg s chains xs) (hlaw : cfg.hashPolicy.Lawful)
    (hvalue : cfg.valuePolicy.Faithful) {old : V} (hstored : Stores cfg s key old)
    (hcopies : AssignsOk (chainPutCopies cfg s key value)) :
    ∃ u, chainPut cfg s key value = some (.ok, u) ∧ Updated cfg s u key value := by
  obtain ⟨found, prev, heq, -⟩ := hstored
  rcases chainFind_cases h.inv (h.inv.bucketIndex_lt key) key with
    ⟨as, node, bs, hfound, heq'⟩ | ⟨-, prev', heq'⟩
  · have hcopied : cfg.valuePolicy.copyAssign s.values.copies (s.values.contents node) value =
        value := by
      simp only [chainPutCopies, heq', assignsOk_assign] at hcopies
      exact hvalue _ _ _ hcopies
    have hassigned := h.assign hlaw hfound value
    rw [hcopied] at hassigned
    refine ⟨{ s with values := s.values.copyAssign cfg.valuePolicy node value }, ?_,
      h.updated hlaw ⟨found, prev, heq, rfl⟩ hassigned rfl⟩
    simp only [chainPut, heq', Option.map_some]
  · rw [heq'] at heq
    cases heq

/-- **A put of a stored key** whose copies succeed does what an update owes exactly if it does not
grow in vain first. -/
theorem Stands.put_stored (h : Stands cfg s chains xs) (hlaw : cfg.hashPolicy.Lawful)
    (hvalue : cfg.valuePolicy.Faithful) {old : V} (hstored : Stores cfg s key old)
    (hcopies : AssignsOk (putCopies cfg s (some key) (some value))) :
    (∃ u, ChainMap.put cfg s (some key) (some value) = some (.ok, u) ∧ Updated cfg s u key value) ↔
      ¬ GrowsInVain cfg s := by
  have hne : s.bucketCount ≠ 0 := h.inv.bucketCount_ne
  by_cases hgrow : shouldGrow cfg.growable s.bucketCount (BitVec.ofNat w s.size) = true
  · obtain ⟨hgrows, -, -⟩ := growBucketCount_real cfg h.inv.pos h.inv.real
    have hrehash : maybeGrow cfg s = chainRehash cfg s (growBucketCount s.bucketCount) :=
      if_neg hgrows
    by_cases halloc :
        cfg.allocRaw s.allocs (growBucketCount s.bucketCount * cfg.pointerSize) = .ok
    · have hgranted : ¬ GrowsInVain cfg s := by
        rintro ⟨-, hsame | hdenied⟩
        · exact hgrows hsame
        · exact hdenied halloc
      -- the growth relinks the nodes, and the put finds the key among them
      refine iff_of_true ?_ hgranted
      rcases maybeGrow_cases h.inv with ⟨t, chains₁, heq, hrelinks⟩ | ⟨st, hst, -, heq⟩
      · have hrelinked := h.relink hrelinks
        have hsize : t.size = s.size := by
          rw [hrelinks.inv.size_eq, h.inv.size_eq, hrelinks.stored.length_eq]
        have hsame : ∀ k v, Stores cfg t k v ↔ Stores cfg s k v := fun k v =>
          (hrelinked.stores_iff hlaw k v).trans (h.stores_iff hlaw k v).symm
        simp only [putCopies, hne, if_false, hgrow, if_true, heq, ne_eq, not_true_eq_false]
          at hcopies
        obtain ⟨u, hput, hupdated⟩ :=
          hrelinked.chainPut_stored hlaw hvalue ((hsame key old).mpr hstored) hcopies
        refine ⟨u, ?_, hupdated.size.trans hsize, hupdated.stores, fun other v hother =>
          (hupdated.others other v hother).trans (hsame other v)⟩
        simp only [ChainMap.put, hne, if_false, hgrow, if_true, heq, ne_eq, not_true_eq_false, hput]
      · rw [hrehash, chainRehash] at heq
        simp only [halloc, ne_eq, not_true_eq_false, if_false] at heq
        obtain ⟨r, -, hr⟩ := Option.map_eq_some_iff.mp heq
        exact absurd (congrArg Prod.fst hr).symm hst
    · -- a put fails with its growth, though it needs no new node
      refine iff_of_false ?_ (not_not.mpr ⟨hgrow, .inr halloc⟩)
      rintro ⟨u, hput, -⟩
      simp only [ChainMap.put, hne, if_false, hgrow, if_true, hrehash, chainRehash, ne_eq, halloc,
        not_false_eq_true, Option.some.injEq, Prod.mk.injEq] at hput
      exact hput.1
  · refine iff_of_true ?_ (fun hvain => hgrow hvain.1)
    simp only [putCopies, hne, if_false, hgrow] at hcopies
    obtain ⟨u, hput, hupdated⟩ := h.chainPut_stored hlaw hvalue hstored hcopies
    refine ⟨u, ?_, hupdated⟩
    simp only [ChainMap.put, hne, if_false, hgrow, hput]
    rfl

end ChainMap

/-! ## Slots -/

namespace OpenMap

/-- The value of `key` is `value` after the put, and nothing else has changed. -/
structure Updated (cfg : HashMapConfig w K V) (s u : OpenMap w K V) (key : K) (value : V) :
    Prop where
  size : u.size = s.size
  stores : Stores cfg u key value
  others : ∀ other v, cfg.hashPolicy.equal key other = false →
    (Stores cfg u other v ↔ Stores cfg s other v)

/-- A put wants to grow first, and the growth gets no memory. -/
def GrowsInVain (cfg : HashMapConfig w K V) (s : OpenMap w K V) : Prop :=
  shouldGrow cfg.growable s.bucketCount s.size = true ∧ GrowthRefused cfg s

instance (cfg : HashMapConfig w K V) (s : OpenMap w K V) : Decidable (GrowsInVain cfg s) :=
  inferInstanceAs (Decidable (_ ∧ (_ ∨ _)))

variable {cfg : HashMapConfig w K V} {s m : OpenMap w K V} {key : K} {value : V}

/-- What a lookup finds in a table in order. -/
theorem Table.stores_iff (hlaw : cfg.hashPolicy.Lawful) (htable : Table cfg s) (key : K) (v : V) :
    Stores cfg s key v ↔ Holds cfg s key v := by
  constructor
  · rintro ⟨i, -, hi, hv⟩
    exact ⟨i, hi, hv⟩
  · rintro ⟨i, hi, hv⟩
    exact ⟨i, htable.probe_stored hlaw hi false, hi, hv⟩

/-- `open_put` of a stored key, when the copy of the value succeeds. -/
theorem Table.openPut_stored (hlaw : cfg.hashPolicy.Lawful) (hvalue : cfg.valuePolicy.Faithful)
    (htable : Table cfg s) {old : V} (hstored : Stores cfg s key old)
    (hcopies : AssignsOk (openPutCopies cfg s key value)) :
    ∃ u, OpenMap.openPut cfg s key value = (.ok, u) ∧ Updated cfg s u key value := by
  obtain ⟨i, -, hi, -⟩ := hstored
  obtain ⟨hput, hrun⟩ := openPut_over (htable.probe_stored hlaw hi true) hi.2 value
  have hcopied : cfg.valuePolicy.copyAssign s.copies (s.slots i).value value = value := by
    rw [hrun, assignsOk_assign] at hcopies
    exact hvalue _ _ _ hcopies
  rw [hcopied] at hput
  have hafter : Table cfg (OpenMap.assigned s i value) := htable.assigned
  refine ⟨_, hput, rfl, ?_, ?_⟩
  · rw [hafter.stores_iff hlaw, holds_assigned hlaw htable hi, if_pos (hlaw.refl key)]
  · intro other v hother
    rw [hafter.stores_iff hlaw, htable.stores_iff hlaw, holds_assigned hlaw htable hi, hother]
    simp

/-- **A put of a stored key** whose copies succeed does what an update owes exactly if it does not
grow in vain first. -/
theorem Table.put_stored (hlaw : cfg.hashPolicy.Lawful) (hkey : cfg.keyPolicy.Faithful)
    (hvalue : cfg.valuePolicy.Faithful) (htable : Table cfg s) {old : V}
    (hstored : Stores cfg s key old)
    (hconstructs : ConstructsOk (putCopies cfg s (some key) (some value)))
    (hassigns : AssignsOk (putCopies cfg s (some key) (some value))) :
    (∃ u, OpenMap.put cfg s (some key) (some value) = (.ok, u) ∧ Updated cfg s u key value) ↔
      ¬ GrowsInVain cfg s := by
  by_cases hgrow : shouldGrow cfg.growable s.bucketCount s.size = true
  · obtain ⟨-, ⟨m, hgrown, hmigrated, -, hgranted, -⟩ | ⟨hst, -, hwhy⟩⟩ :=
      maybeGrow_cases hlaw hkey hvalue htable
    · refine iff_of_true ?_ (fun hvain => hgranted hvain.2)
      obtain ⟨hput, hcopies⟩ := put_of_grown htable hgrow hgrown key value
      rw [hcopies, assignsOk_append] at hassigns
      have hsame : ∀ k v, Stores cfg m k v ↔ Stores cfg s k v := by
        intro k v
        rw [hmigrated.table.stores_iff hlaw, htable.stores_iff hlaw, hmigrated.holds]
      obtain ⟨u, hput', hupdated⟩ :=
        hmigrated.table.openPut_stored hlaw hvalue ((hsame key old).mpr hstored) hassigns.2
      exact ⟨u, hput.trans hput', hupdated.size.trans hmigrated.size, hupdated.stores,
        fun other v hother => (hupdated.others other v hother).trans (hsame other v)⟩
    · -- no copy failed, so the memory did
      have hcopies : putCopies cfg s (some key) (some value) = maybeGrowCopies cfg s := by
        simp only [putCopies, if_neg htable.bucketCount_ne, if_pos hgrow, if_pos hst,
          List.append_nil]
      rw [hcopies] at hconstructs
      have hrefused := hwhy.resolve_right (not_not.mpr hconstructs)
      refine iff_of_false ?_ (not_not.mpr ⟨hgrow, hrefused⟩)
      rintro ⟨u, hput, -⟩
      rw [put_of_not_grown htable hgrow hst] at hput
      exact hst (congrArg Prod.fst hput)
  · refine iff_of_true ?_ (fun hvain => hgrow hvain.1)
    have hcopies : putCopies cfg s (some key) (some value) = openPutCopies cfg s key value := by
      simp only [putCopies, if_neg htable.bucketCount_ne, if_neg hgrow]
    rw [hcopies] at hassigns
    rw [put_of_stays key value htable hgrow]
    exact htable.openPut_stored hlaw hvalue hstored hassigns

end OpenMap

/-! ## Both layouts -/

/-- **When an update needs no memory.** In both layouts, after any calls (which for the slots keep
the table in order), whatever the allocator and the earlier copies answered: a put of a stored key
whose own copies succeed returns ok, stores the value and changes nothing else exactly if it does not
want to grow first, or the growth gets its memory. -/
theorem updates_iff (chain : ChainConfig w K V) (slots : HashMapConfig w' K V)
    (hchainLaw : chain.hashPolicy.Lawful) (hchainKey : chain.keyPolicy.Faithful)
    (hchainValue : chain.valuePolicy.Faithful) (hslotsLaw : slots.hashPolicy.Lawful)
    (hslotsKey : slots.keyPolicy.Faithful) (hslotsValue : slots.valuePolicy.Faithful)
    (links : ℕ → Option ℕ) (keyMemory : ℕ → K) (valueMemory : ℕ → V) {slotMemory : ℕ → Slot K V}
    {bucketCount : BitVec w'} {s₀ : OpenMap w' K V}
    (hinit : OpenMap.initOpen true slotMemory bucketCount slots.slotStride = .ok s₀) :
    (∀ calls s,
      Mealy.final (ChainMap.call chain) (.init chain links keyMemory valueMemory) calls = s →
      ∀ key value old, ChainMap.Stores chain s key old →
        ConstructsOk (ChainMap.putCopies chain s (some key) (some value)) →
        AssignsOk (ChainMap.putCopies chain s (some key) (some value)) →
        ((∃ u, ChainMap.put chain s (some key) (some value) = some (.ok, u) ∧
            ChainMap.Updated chain s u key value) ↔ ¬ ChainMap.GrowsInVain chain s)) ∧
    (∀ calls s, Mealy.EveryCall (OpenMap.call slots) (OpenMap.Orderly slots) s₀ calls →
      Mealy.final (OpenMap.call slots) s₀ calls = s →
      ∀ key value old, OpenMap.Stores slots s key old →
        ConstructsOk (OpenMap.putCopies slots s (some key) (some value)) →
        AssignsOk (OpenMap.putCopies slots s (some key) (some value)) →
        ((∃ u, OpenMap.put slots s (some key) (some value) = (.ok, u) ∧
            OpenMap.Updated slots s u key value) ↔ ¬ OpenMap.GrowsInVain slots s)) := by
  constructor
  · rintro calls s rfl key value old hstored - hassigns
    obtain ⟨chains, xs, hstands⟩ := (Mealy.everyCall_true _ calls).final_invariant
      (fun s => ∃ chains xs, ChainMap.Stands chain s chains xs)
      (fun s c ⟨chains, xs, h⟩ _ => h.call hchainLaw hchainKey hchainValue c)
      ⟨_, _, ChainMap.stands_init chain links keyMemory valueMemory⟩
    exact hstands.put_stored hchainLaw hchainValue hstored hassigns
  · rintro calls s hgood rfl key value old hstored hconstructs hassigns
    have htable := hgood.final_invariant (OpenMap.Table slots)
      (fun s c htable hc => htable.call hslotsLaw hslotsKey hslotsValue hc)
      (OpenMap.table_initOpen hinit)
    exact htable.put_stored hslotsLaw hslotsKey hslotsValue hstored hconstructs hassigns

/-- The plain map over slots of its caller, without any other memory. -/
def starvedSlots : HashMapConfig 64 ℕ ℕ := { OpenMap.plainConfig true with allocRaw _ _ := .oom }

/-- The map of keys modulo eight with memory for one node. -/
def starvedChain : ChainConfig 16 ℕ ℕ :=
  { ChainMap.octalMap with
    allocRaw := fun n bytes => if n < 1 then ChainMap.octalMap.allocRaw n bytes else .oom
    allocRaw_real := by
      intro n bytes hok
      split at hok
      · exact ChainMap.octalMap.allocRaw_real n bytes hok
      · cases hok }

/-- Two buckets with one pair: an update makes the map grow. -/
def grownByUpdate (chain : ChainConfig 16 ℕ ℕ) : ChainMap 16 ℕ ℕ :=
  Mealy.final (ChainMap.call chain) (.init chain (fun _ => none) (fun _ => 0) fun _ => 0)
    [.put (some 1) (some 10)]

/-- An update that finds the memory to grow, and one that does not want to. -/
theorem updates_iff_one :
    (∃ u, ChainMap.put ChainMap.octalMap (grownByUpdate ChainMap.octalMap) (some 1) (some 11) =
        some (.ok, u) ∧
      ChainMap.Updated ChainMap.octalMap (grownByUpdate ChainMap.octalMap) u 1 11) ∧
    (∃ u, OpenMap.put starvedSlots
        (Mealy.final (OpenMap.call starvedSlots) (OpenMap.plainMap 4) [.put (some 1) (some 10)])
        (some 1) (some 11) = (.ok, u) ∧
      OpenMap.Updated starvedSlots
        (Mealy.final (OpenMap.call starvedSlots) (OpenMap.plainMap 4) [.put (some 1) (some 10)])
        u 1 11) := by
  obtain ⟨hchain, hslots⟩ := updates_iff ChainMap.octalMap starvedSlots ChainMap.plain_octalMap.hash
    ChainMap.plain_octalMap.key.faithful ChainMap.plain_octalMap.value.faithful
    (HashPolicy.lawful_ofDecEq _) (ElementPolicy.nonFailing_bytewise ℕ).faithful
    (ElementPolicy.nonFailing_bytewise ℕ).faithful (fun _ => none) (fun _ => 0) (fun _ => 0)
    (show OpenMap.initOpen true (fun _ => ⟨.empty, 0, 0⟩) 4 starvedSlots.slotStride =
      .ok (OpenMap.plainMap 4) from rfl)
  refine ⟨(hchain _ _ rfl 1 11 10 ⟨0, none, ?_, ?_⟩ ?_ ?_).mpr ?_,
    (hslots _ _ ?_ rfl 1 11 10 ⟨1, ?_, ⟨⟨?_, ?_⟩, ?_⟩, ?_⟩ ?_ ?_).mpr ?_⟩
  all_goals decide +kernel

/-- Without memory to grow, a value is not stored under a key that is there: in a map of two buckets
with one pair, and in one of four slots with two. -/
theorem update_refused :
    ChainMap.Stores starvedChain (grownByUpdate starvedChain) 1 10 ∧
      (ChainMap.put starvedChain (grownByUpdate starvedChain) (some 1) (some 11)).map Prod.fst =
        some .oom ∧
      Mealy.outputs (OpenMap.call starvedSlots) (OpenMap.plainMap 4)
          [.put (some 1) (some 10), .put (some 2) (some 20), .put (some 1) (some 11),
            .get (some 1) (some 0)] =
        [.put .ok, .put .ok, .put .oom, .get .ok (some 10)] := by
  refine ⟨⟨0, none, ?_, ?_⟩, ?_, ?_⟩
  all_goals decide +kernel

end Memkit
