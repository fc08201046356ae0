import Memkit.Hashing.OpenAddressingCopies

/-! # Rehashing with copies that may fail

`open_rehash` swaps the new slots in before it copies the entries one by one, and every copy may
fail. A rehash that succeeds has moved the whole map; one that does not has put the old slots back,
and a lookup cannot tell that it was tried.

* **`lookup`** — the value that a lookup of a key comes to.
* **`SameLookups`** — two tables that no lookup tells apart.
* **`openRehash_migrates`** — both outcomes of a rehash. -/

namespace Memkit

open CopyCall

variable {w : ℕ} {K V : Type*}

namespace OpenMap

/-- The value that a lookup of `key` comes to. -/
def lookup (cfg : HashMapConfig w K V) (s : OpenMap w K V) (key : K) : Option V :=
  let (state, index) := openProbe cfg s key false
  if state = .occupied then some (s.slots index).value else none

/-- No lookup tells the tables apart, whatever the copies to its `out_value` do. -/
structure SameLookups (cfg : HashMapConfig w K V) (s t : OpenMap w K V) : Prop where
  contains : ∀ key, OpenMap.contains cfg t key = OpenMap.contains cfg s key
  get : ∀ copies key out,
    (OpenMap.get cfg { t with copies } key out).1 = (OpenMap.get cfg { s with copies } key out).1

/-- The slots, their number and `size_` are as before. -/
structure Restored (s t : OpenMap w K V) : Prop where
  slots : t.slots = s.slots
  bucketCount : t.bucketCount = s.bucketCount
  size : t.size = s.size

/-- The table `t` of `newCount` slots holds what `s` held and has no tombstones. -/
structure Migrated (cfg : HashMapConfig w K V) (s : OpenMap w K V) (newCount : BitVec w)
    (t : OpenMap w K V) : Prop where
  table : Table cfg t
  bucketCount : t.bucketCount = newCount
  size : t.size = s.size
  clean : Clean t
  holds : ∀ k v, Holds cfg t k v ↔ Holds cfg s k v
  reachable : ∀ k i, StoredAt cfg t k i → openProbe cfg t k false = (.occupied, i)

variable {cfg : HashMapConfig w K V} {s t old m : OpenMap w K V} {key : K} {value : V} {i : ℕ}
  {newCount : BitVec w} {done : List ℕ}

/-! ## Lookups -/

/-- `contains` says whether the lookup comes to a value. -/
theorem contains_eq_lookup (cfg : HashMapConfig w K V) (s : OpenMap w K V) (key : K) :
    contains cfg s (some key) = (lookup cfg s key).isSome := by
  show decide ((openProbe cfg s key false).1 = .occupied) = _
  unfold lookup
  dsimp only
  split
  · rename_i hocc
    rw [hocc]
    rfl
  · rename_i hocc
    exact decide_eq_false hocc

/-- `get` copies the value that the lookup comes to. -/
theorem get_eq_lookup (cfg : HashMapConfig w K V) (s : OpenMap w K V) (key : K) (out : V) :
    (get cfg s (some key) (some out)).1 =
      match lookup cfg s key with
      | some value => (.ok, some (cfg.valuePolicy.copyAssign s.copies out value))
      | none => (.notFound, some out) := by
  show (((openGet cfg s key out).1.1, some (openGet cfg s key out).1.2) : Status × Option V) = _
  unfold openGet lookup
  dsimp only
  by_cases hocc : (openProbe cfg s key false).1 = .occupied
  · rw [if_pos hocc, if_neg (not_not.mpr hocc)]
  · rw [if_neg hocc, if_pos hocc]

/-- Tables whose lookups come to the same values are told apart by none. -/
theorem sameLookups_of_lookup (h : ∀ key, lookup cfg t key = lookup cfg s key) :
    SameLookups cfg s t := by
  constructor
  · intro key
    cases key with
    | none => rfl
    | some key => rw [contains_eq_lookup, contains_eq_lookup, h]
  · intro copies key out
    cases key with
    | none => rfl
    | some key =>
      cases out with
      | none => rfl
      | some out =>
        have hlookup : lookup cfg { t with copies } key = lookup cfg { s with copies } key := h key
        rw [get_eq_lookup, get_eq_lookup, hlookup]

/-- A lookup reads the slots and their number only. -/
theorem Restored.sameLookups (h : Restored s t) : SameLookups cfg s t := by
  apply sameLookups_of_lookup
  intro key
  unfold lookup openProbe buckets
  rw [h.slots, h.bucketCount]

/-! ## The loop -/

/-- A live entry whose copies succeed is put into the new slots; otherwise the put fails. -/
theorem Rebuilt.put_copies (hlaw : cfg.hashPolicy.Lawful) (hkey : cfg.keyPolicy.Faithful)
    (hvalue : cfg.valuePolicy.Faithful) (hold : Table cfg old)
    (hbuilt : Rebuilt cfg old newCount done m) (hlive : Live old i) (hnew : i ∉ done)
    (hroom : (done.filter fun j => (old.slots j).state = .occupied).length < newCount.toNat) :
    AssignsOk (openPutCopies cfg m (old.slots i).key (old.slots i).value) ∧
      ((∃ m', openPut cfg m (old.slots i).key (old.slots i).value = (.ok, m') ∧
          Rebuilt cfg old newCount (done ++ [i]) m' ∧
          ConstructsOk (openPutCopies cfg m (old.slots i).key (old.slots i).value)) ∨
        ((openPut cfg m (old.slots i).key (old.slots i).value).1 ≠ .ok ∧
          ¬ ConstructsOk (openPutCopies cfg m (old.slots i).key (old.slots i).value))) := by
  have habsent := hbuilt.absent hold hlive hnew
  obtain ⟨d, hd, hpass, hstate, hprobe⟩ :=
    hbuilt.table.probe_absent habsent (hbuilt.hasEmpty hroom) true
  have hfree := freeFor_target hbuilt.table.pos hd hpass hstate
  obtain ⟨hassigns, ⟨hput, hconstructs⟩ | hfailed⟩ :=
    openPut_new hkey hvalue hprobe (old.slots i).value
  · exact ⟨hassigns, .inl ⟨_, hput, hbuilt.inserted hlaw hold hlive hnew hroom hfree, hconstructs⟩⟩
  · exact ⟨hassigns, .inr hfailed⟩

/-- **The loop of `open_rehash`** puts every remaining live entry, or a copy fails and so does the
loop. It copies to dead slots only. -/
theorem Rebuilt.loop_copies (hlaw : cfg.hashPolicy.Lawful) (hkey : cfg.keyPolicy.Faithful)
    (hvalue : cfg.valuePolicy.Faithful) (hold : Table cfg old) (is done : List ℕ)
    (m : OpenMap w K V) (hbuilt : Rebuilt cfg old newCount done m) (hnodup : (done ++ is).Nodup)
    (hbound : ∀ i ∈ is, i < old.buckets)
    (hroom : ((done ++ is).filter fun j => (old.slots j).state = .occupied).length ≤
      newCount.toNat) :
    AssignsOk (rehashLoopCopies cfg old.slots is m) ∧
      ((∃ m', rehashLoop cfg old.slots is m = (.ok, m') ∧
          Rebuilt cfg old newCount (done ++ is) m' ∧
          ConstructsOk (rehashLoopCopies cfg old.slots is m)) ∨
        ((rehashLoop cfg old.slots is m).1 ≠ .ok ∧
          ¬ ConstructsOk (rehashLoopCopies cfg old.slots is m))) := by
  induction is generalizing done m with
  | nil =>
    refine ⟨assignsOk_nil, .inl ⟨m, rfl, ?_, constructsOk_nil⟩⟩
    rwa [List.append_nil]
  | cons i is ih =>
    have hassoc : done ++ i :: is = (done ++ [i]) ++ is := by simp
    have hrest : ∀ j ∈ is, j < old.buckets := fun j hj => hbound j (List.mem_cons_of_mem _ hj)
    rw [hassoc] at hnodup hroom ⊢
    unfold rehashLoop rehashLoopCopies
    by_cases hstate : (old.slots i).state = .occupied
    · have hlive : Live old i := ⟨hbound i List.mem_cons_self, hstate⟩
      have hnew := notMem_of_nodup_next hnodup
      have hlt := filter_lt_of_next hstate hroom
      rw [if_neg (not_not.mpr hstate), if_neg (not_not.mpr hstate)]
      dsimp only
      obtain ⟨hassigns, ⟨m', hput, hbuilt', hconstructs⟩ | ⟨hst, hconstructs⟩⟩ :=
        hbuilt.put_copies hlaw hkey hvalue hold hlive hnew hlt
      · obtain ⟨hassigns', hrest'⟩ := ih (done ++ [i]) m' hbuilt' hnodup hrest hroom
        rw [hput]
        simp only [ne_eq, not_true_eq_false, if_false, assignsOk_append, constructsOk_append]
        refine ⟨⟨hassigns, hassigns'⟩, hrest'.imp ?_ ?_⟩
        · rintro ⟨m'', hloop, hdone, hconstructs'⟩
          exact ⟨m'', hloop, hdone, hconstructs, hconstructs'⟩
        · rintro ⟨hst, hconstructs'⟩
          exact ⟨hst, fun h => hconstructs' h.2⟩
      · rw [if_pos hst, if_pos hst, List.append_nil]
        exact ⟨hassigns, .inr ⟨hst, hconstructs⟩⟩
    · rw [if_pos hstate, if_pos hstate]
      exact ih (done ++ [i]) m (hbuilt.skip hstate) hnodup hrest hroom

/-! ## `open_rehash` -/

/-- A table whose loop succeeded holds what the old one held. -/
theorem Rebuilt.migrated (hlaw : cfg.hashPolicy.Lawful) (hold : Table cfg s)
    (hbuilt : Rebuilt cfg s newCount (List.range s.buckets) m) : Migrated cfg s newCount m := by
  refine ⟨hbuilt.table, hbuilt.bucketCount, ?_, hbuilt.clean, ?_, ?_⟩
  · apply BitVec.eq_of_toNat_eq
    rw [hbuilt.size, hold.count]
    rfl
  · intro k v
    rw [hbuilt.holds]
    constructor
    · rintro ⟨j, -, h⟩
      exact ⟨j, h⟩
    · rintro ⟨j, h⟩
      exact ⟨j, List.mem_range.mpr h.1.1.1, h⟩
  · intro k i hi
    exact hbuilt.table.probe_stored hlaw hi false

/-- What `open_rehash` comes to: the whole map moved and no callback failed, or the old slots are
back because the allocation or a copy failed. -/
theorem openRehash_cases (hlaw : cfg.hashPolicy.Lawful) (hkey : cfg.keyPolicy.Faithful)
    (hvalue : cfg.valuePolicy.Faithful) (htable : Table cfg s) (newCount : BitVec w)
    (hroom : s.size.toNat < newCount.toNat) :
    AssignsOk (openRehashCopies cfg s newCount) ∧
      ((∃ t, openRehash cfg s newCount = (.ok, t) ∧ Migrated cfg s newCount t ∧
          cfg.allocRaw s.allocs (newCount * cfg.slotStride) = .ok ∧
          ConstructsOk (openRehashCopies cfg s newCount)) ∨
        ((openRehash cfg s newCount).1 ≠ .ok ∧ Restored s (openRehash cfg s newCount).2 ∧
          (cfg.allocRaw s.allocs (newCount * cfg.slotStride) ≠ .ok ∨
            ¬ ConstructsOk (openRehashCopies cfg s newCount)))) := by
  unfold openRehash openRehashCopies
  dsimp only
  by_cases halloc : cfg.allocRaw s.allocs (newCount * cfg.slotStride) = .ok
  · rw [if_neg (not_not.mpr halloc), if_neg (not_not.mpr halloc)]
    have hlength : ((List.range s.buckets).filter fun j =>
        (s.slots j).state = .occupied).length = s.size.toNat := htable.count.symm
    have hfresh : Rebuilt cfg s newCount []
        (freshSlots cfg { s with allocs := s.allocs + 1 } newCount) := rebuilt_nil (by omega)
    have hcount : ({ s with allocs := s.allocs + 1 } : OpenMap w K V).buckets = s.buckets := rfl
    rw [hcount]
    obtain ⟨hassigns, ⟨t, hloop, hbuilt, hconstructs⟩ | ⟨hst, hconstructs⟩⟩ :=
      hfresh.loop_copies hlaw hkey hvalue htable (List.range s.buckets) [] _ List.nodup_range
        (fun i hi => List.mem_range.mp hi) (by
          rw [List.nil_append, hlength]
          exact hroom.le)
    · refine ⟨hassigns, .inl ⟨t, ?_, hbuilt.migrated hlaw htable, halloc, hconstructs⟩⟩
      rw [hloop, if_neg (not_not.mpr rfl)]
    · rw [if_pos hst]
      exact ⟨hassigns, .inr ⟨hst, ⟨rfl, rfl, rfl⟩, .inr hconstructs⟩⟩
  · rw [if_pos halloc, if_pos halloc]
    exact ⟨assignsOk_nil, .inr ⟨halloc, ⟨rfl, rfl, rfl⟩, .inl halloc⟩⟩

/-- **A rehash preserves the map**: if it succeeds, the new table holds the same entries, each
reachable by probing, and has no tombstones; if the allocation or any copy fails, it does not
succeed, and nothing that a lookup reads has changed. -/
theorem openRehash_migrates (cfg : HashMapConfig w K V) (hlaw : cfg.hashPolicy.Lawful)
    (hkey : cfg.keyPolicy.Faithful) (hvalue : cfg.valuePolicy.Faithful) (s : OpenMap w K V)
    (htable : Table cfg s) (newCount : BitVec w) (hroom : s.size.toNat < newCount.toNat) :
    ((openRehash cfg s newCount).1 = .ok →
        Migrated cfg s newCount (openRehash cfg s newCount).2) ∧
      ((cfg.allocRaw s.allocs (newCount * cfg.slotStride) ≠ .ok ∨
          ∃ c ∈ openRehashCopies cfg s newCount, c.status ≠ .ok) →
        (openRehash cfg s newCount).1 ≠ .ok ∧ Restored s (openRehash cfg s newCount).2 ∧
          SameLookups cfg s (openRehash cfg s newCount).2) := by
  obtain ⟨hassigns, ⟨t, hrehash, hmigrated, halloc, hconstructs⟩ | ⟨hst, hrestored, -⟩⟩ :=
    openRehash_cases hlaw hkey hvalue htable newCount hroom
  · rw [hrehash]
    refine ⟨fun _ => hmigrated, ?_⟩
    rintro (hdenied | hfailed)
    · exact absurd halloc hdenied
    · exact absurd hfailed (status_ok hconstructs hassigns)
  · exact ⟨fun hok => absurd hok hst, fun _ => ⟨hst, hrestored, hrestored.sameLookups⟩⟩

/-- The plain map whose copy of a value fails from the `n`-th copy on. -/
def failingConfig (n : ℕ) : HashMapConfig 64 ℕ ℕ :=
  { plainConfig false with
    valuePolicy :=
      { copyFn := fun copies dst src => if n ≤ copies then (.oom, dst) else (.ok, src)
        destroyFn := id } }

theorem faithful_failingConfig (n : ℕ) : (failingConfig n).valuePolicy.Faithful := by
  intro copies dst src hok
  simp only [failingConfig] at hok ⊢
  split at hok
  · cases hok
  · rename_i hlt
    rw [if_neg hlt]

/-- Two buckets, both taken. -/
def fullMap : OpenMap 64 ℕ ℕ :=
  Mealy.final (call (plainConfig false)) (plainMap 2)
    [.put (some 1) (some 10), .put (some 3) (some 30)]

theorem table_fullMap (n : ℕ) : Table (failingConfig n) fullMap := by
  have hstep : InStep (plainConfig false) ⟨plainMap 2, fun _ => none⟩ :=
    inStep_initOpen (show initOpen true (fun _ => ⟨.empty, 0, 0⟩) 2 12 = .ok (plainMap 2) from rfl)
  have hgood : Mealy.EveryCall (Session.call (plainConfig false)) (Undamaging (plainConfig false))
      ⟨plainMap 2, fun _ => none⟩ [.put (some 1) (some 10), .put (some 3) (some 30)] := by decide
  have hkept := hgood.final_invariant (InStep (plainConfig false))
    (fun s c hstep hc => hstep.keep_call (HashPolicy.lawful_ofDecEq _)
      (ElementPolicy.nonFailing_bytewise _) (ElementPolicy.nonFailing_bytewise _) hc) hstep
  -- the order of a table depends on the hash policy only
  have htable : Table (plainConfig false) fullMap := hkept.table
  exact ⟨htable.pos, htable.reach, htable.distinct, htable.count⟩

/-- The two entries move to eight buckets; if the last of the four copies fails, they stay. -/
theorem openRehash_migrates_two :
    Migrated (failingConfig 8) fullMap 8 (openRehash (failingConfig 8) fullMap 8).2 ∧
      Restored fullMap (openRehash (failingConfig 7) fullMap 8).2 ∧
      SameLookups (failingConfig 7) fullMap (openRehash (failingConfig 7) fullMap 8).2 :=
  ⟨(openRehash_migrates (failingConfig 8) (HashPolicy.lawful_ofDecEq _)
      (ElementPolicy.nonFailing_bytewise ℕ).faithful (faithful_failingConfig 8) fullMap
      (table_fullMap 8) 8 (by decide)).1 (by decide),
    ((openRehash_migrates (failingConfig 7) (HashPolicy.lawful_ofDecEq _)
      (ElementPolicy.nonFailing_bytewise ℕ).faithful (faithful_failingConfig 7) fullMap
      (table_fullMap 7) 8 (by decide)).2 (.inr (by decide))).2⟩

end OpenMap

end Memkit
