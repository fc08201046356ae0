import Memkit.Hashing.OpenAddressingTable

/-! # Put and rehash on a table in order

`open_put` in its three situations — the key is stored, it is absent and some slot is empty, it is
absent and none is — and `open_rehash`, whose loop puts the live entries of the old slots one by
one into zeroed memory. -/

namespace Memkit

namespace OpenMap

variable {w : ℕ} {K V : Type*} {cfg : HashMapConfig w K V} {s : OpenMap w K V} {key : K}
  {value : V} {t : ℕ}

/-! ## `open_put` -/

/-- The slot an inserting probe reports on its way to an empty slot is free for the key. -/
theorem freeFor_target (hpos : 0 < s.buckets) {d : ℕ} (hd : d < s.buckets)
    (hpass : ∀ e < d, Passes cfg.hashPolicy.equal s.slots key
      (walk s.buckets (home cfg s.buckets key) e))
    (hstate : (s.slots (walk s.buckets (home cfg s.buckets key) d)).state = .empty) :
    FreeFor cfg s key (target s.slots s.buckets (home cfg s.buckets key) true d) := by
  have hfull : ∀ e < d, (s.slots (walk s.buckets (home cfg s.buckets key) e)).state ≠ .empty := by
    intro e he
    rcases hpass e he with hdel | ⟨hocc, -⟩
    · rw [hdel]
      decide
    · rw [hocc]
      decide
  rw [target, if_pos rfl]
  cases hfound : firstTombstone s.slots s.buckets (home cfg s.buckets key) d with
  | none =>
    refine ⟨walk_lt hpos _ _, ?_, d, hd, rfl, hfull⟩
    rw [Option.getD_none, hstate]
    decide
  | some i =>
    obtain ⟨hdel, e, he, rfl⟩ := firstTombstone_eq_some hfound
    refine ⟨walk_lt hpos _ _, ?_, e, he.trans hd, rfl, fun e' he' => hfull e' (he'.trans he)⟩
    rw [Option.getD_some, hdel]
    decide

/-- Putting a stored key overwrites its value. -/
theorem openPut_stored (hlaw : cfg.hashPolicy.Lawful) (hval : cfg.valuePolicy.NonFailing)
    (htable : Table cfg s) (hstored : StoredAt cfg s key t) :
    openPut cfg s key value = (.ok, assigned s t value) := by
  simp only [openPut, htable.probe_stored hlaw hstored, if_true, hstored.2, hval.copyAssign]
  rfl

/-- Putting where the probe reports a slot that is not occupied writes a new entry there. -/
theorem openPut_of_probe_empty (hkey : cfg.keyPolicy.NonFailing)
    (hval : cfg.valuePolicy.NonFailing) (hprobe : openProbe cfg s key true = (.empty, t)) :
    openPut cfg s key value = (.ok, inserted s t key value) := by
  simp only [openPut, hprobe, hkey.copyConstruct, hval.copyConstruct]
  simp [setSlot, inserted]

/-- Putting an absent key into a table with an empty slot writes a new entry to the slot the probe
reports. -/
theorem openPut_absent (hkey : cfg.keyPolicy.NonFailing) (hval : cfg.valuePolicy.NonFailing)
    (htable : Table cfg s) (habsent : ¬ Stored cfg s key) (hempty : HasEmpty s) (value : V) :
    ∃ t, FreeFor cfg s key t ∧ openProbe cfg s key true = (.empty, t) ∧
      openPut cfg s key value = (.ok, inserted s t key value) := by
  obtain ⟨d, hd, hpass, hstate, hprobe⟩ := htable.probe_absent habsent hempty true
  exact ⟨_, freeFor_target htable.pos hd hpass hstate, hprobe,
    openPut_of_probe_empty hkey hval hprobe⟩

/-- The slot that a put of an absent key falls through to when no slot is empty. -/
def fallThrough (cfg : HashMapConfig w K V) (s : OpenMap w K V) (key : K) : ℕ :=
  target s.slots s.buckets (home cfg s.buckets key) true s.buckets

/-- Putting an absent key into a table without an empty slot is refused, unless the slot the probe
falls through to still has the bytes of an equal key. -/
theorem openPut_full (htable : Table cfg s) (habsent : ¬ Stored cfg s key) (hfull : ¬ HasEmpty s)
    (hstale : cfg.hashPolicy.equal (s.slots (fallThrough cfg s key)).key key = false) :
    openPut cfg s key value = (.full, s) := by
  have hprobe := htable.probe_absent_full habsent hfull true
  rw [fallThrough] at hstale
  simp [openPut, hprobe, hstale]

/-! ## `open_rehash` -/

/-- No slot is a tombstone. -/
def Clean (s : OpenMap w K V) : Prop := ∀ i < s.buckets, (s.slots i).state ≠ .deleted

/-- A table in order without tombstones that is not full has an empty slot. -/
theorem Table.hasEmpty (htable : Table cfg s) (hclean : Clean s)
    (hroom : s.size.toNat < s.buckets) : HasEmpty s := by
  by_contra hnone
  have hall : ∀ i ∈ Finset.range s.buckets, (s.slots i).state = .occupied := by
    intro i hi
    have hi := Finset.mem_range.mp hi
    cases hstate : (s.slots i).state with
    | empty => exact absurd ⟨i, hi, hstate⟩ hnone
    | deleted => exact absurd hstate (hclean i hi)
    | occupied => rfl
  have hcount := htable.count
  rw [Finset.filter_true_of_mem hall, Finset.card_range] at hcount
  omega

/-- An insertion leaves no tombstone behind. -/
theorem Clean.inserted (hclean : Clean s) : Clean (inserted s t key value) := by
  intro i hi
  by_cases heq : i = t
  · rw [heq, slots_inserted_self]
    simp
  · rw [slots_inserted_of_ne heq]
    exact hclean i hi

/-- What the loop of `open_rehash` has built when it has put the live entries of the old slots
`done`. -/
structure Rebuilt (cfg : HashMapConfig w K V) (old : OpenMap w K V) (newCount : BitVec w)
    (done : List ℕ) (t : OpenMap w K V) : Prop where
  table : Table cfg t
  bucketCount : t.bucketCount = newCount
  clean : Clean t
  holds : ∀ k v, Holds cfg t k v ↔ ∃ j ∈ done, StoredAt cfg old k j ∧ (old.slots j).value = v
  size : t.size.toNat = (done.filter fun j => (old.slots j).state = .occupied).length

variable {old : OpenMap w K V} {newCount : BitVec w} {done : List ℕ} {m : OpenMap w K V} {i : ℕ}

/-- Slots that are all empty are in order. -/
theorem table_of_empty (hpos : 0 < s.buckets) (hsize : s.size = 0)
    (hempty : ∀ i < s.buckets, (s.slots i).state = .empty) : Table cfg s := by
  have hdead : ∀ i, ¬ Live s i := by
    rintro i ⟨hi, hocc⟩
    rw [hempty i hi] at hocc
    cases hocc
  refine ⟨hpos, fun i hi => absurd hi (hdead i), fun i j hi => absurd hi (hdead i), ?_⟩
  have hzero : s.size.toNat = 0 := by simp [hsize]
  rw [hzero, eq_comm, Finset.card_eq_zero, Finset.filter_eq_empty_iff]
  intro i hi hocc
  exact hdead i ⟨Finset.mem_range.mp hi, hocc⟩

/-- Slots that are all empty hold nothing. -/
theorem not_holds_of_empty (hempty : ∀ i < s.buckets, (s.slots i).state = .empty) (k : K) (v : V) :
    ¬ Holds cfg s k v := by
  rintro ⟨i, ⟨⟨hi, hocc⟩, -⟩, -⟩
  rw [hempty i hi] at hocc
  cases hocc

/-- Nothing is put yet. -/
theorem rebuilt_nil (hpos : 0 < newCount.toNat) :
    Rebuilt cfg old newCount [] (freshSlots cfg s newCount) := by
  have hempty : ∀ i < (freshSlots cfg s newCount).buckets,
      ((freshSlots cfg s newCount).slots i).state = .empty := fun _ _ => rfl
  refine ⟨table_of_empty hpos rfl hempty, rfl, ?_, ?_, ?_⟩
  · intro i hi
    rw [hempty i hi]
    decide
  · intro k v
    simp [not_holds_of_empty hempty]
  · simp [freshSlots]

/-- A dead slot is skipped. -/
theorem Rebuilt.skip (hbuilt : Rebuilt cfg old newCount done m)
    (hdead : (old.slots i).state ≠ .occupied) : Rebuilt cfg old newCount (done ++ [i]) m := by
  refine ⟨hbuilt.table, hbuilt.bucketCount, hbuilt.clean, ?_, ?_⟩
  · intro k v
    rw [hbuilt.holds k v]
    constructor
    · rintro ⟨j, hj, h⟩
      exact ⟨j, List.mem_append_left _ hj, h⟩
    · rintro ⟨j, hj, h⟩
      rcases List.mem_append.mp hj with hj | hj
      · exact ⟨j, hj, h⟩
      · obtain rfl : j = i := by simpa using hj
        exact absurd h.1.1.2 hdead
  · rw [hbuilt.size, List.filter_append]
    simp [hdead]

/-- The key of a live entry that was not put yet is not there. -/
theorem Rebuilt.absent (hold : Table cfg old) (hbuilt : Rebuilt cfg old newCount done m)
    (hlive : Live old i) (hnew : i ∉ done) : ¬ Stored cfg m (old.slots i).key := by
  rintro ⟨j, hj⟩
  obtain ⟨j', hj', hstored, -⟩ :=
    (hbuilt.holds (old.slots i).key (m.slots j).value).mp ⟨j, hj, rfl⟩
  obtain rfl := hold.distinct j' i hstored.1 hlive hstored.2
  exact hnew hj'

/-- While there is room for an entry, some slot is empty. -/
theorem Rebuilt.hasEmpty (hbuilt : Rebuilt cfg old newCount done m)
    (hroom : (done.filter fun j => (old.slots j).state = .occupied).length < newCount.toNat) :
    HasEmpty m := by
  refine hbuilt.table.hasEmpty hbuilt.clean ?_
  rw [hbuilt.size, buckets, hbuilt.bucketCount]
  exact hroom

/-- A live entry is written to a free slot on the walk of its key. -/
theorem Rebuilt.inserted (hlaw : cfg.hashPolicy.Lawful) (hold : Table cfg old)
    (hbuilt : Rebuilt cfg old newCount done m) (hlive : Live old i) (hnew : i ∉ done)
    (hroom : (done.filter fun j => (old.slots j).state = .occupied).length < newCount.toNat)
    (hfree : FreeFor cfg m (old.slots i).key t) :
    Rebuilt cfg old newCount (done ++ [i])
      (inserted m t (old.slots i).key (old.slots i).value) := by
  have habsent := hbuilt.absent hold hlive hnew
  refine ⟨hbuilt.table.inserted hlaw habsent hfree, hbuilt.bucketCount, ?_, ?_, ?_⟩
  · exact hbuilt.clean.inserted
  · intro k v
    rw [holds_inserted hlaw habsent hfree.1 hfree.2.1]
    constructor
    · intro h
      split at h
      · rename_i hequal
        exact ⟨i, by simp, ⟨hlive, hequal⟩, h⟩
      · obtain ⟨j, hj, h⟩ := (hbuilt.holds k v).mp h
        exact ⟨j, List.mem_append_left _ hj, h⟩
    · rintro ⟨j, hj, hstored, hv⟩
      split
      · rename_i hequal
        have hji : j = i := hold.distinct j i hstored.1 hlive
          (hlaw.trans _ _ _ hstored.2 (hlaw.symm _ _ hequal))
        rw [← hv, hji]
      · rename_i hequal
        refine (hbuilt.holds k v).mpr ⟨j, ?_, hstored, hv⟩
        rcases List.mem_append.mp hj with hj | hj
        · exact hj
        · obtain rfl : j = i := by simpa using hj
          exact absurd hstored.2 hequal
  · have hsucc : (m.size + 1).toNat = m.size.toNat + 1 :=
      WrapCounter.toNat_succ (c := m.bucketCount) (by
        rw [hbuilt.size, hbuilt.bucketCount]
        exact hroom)
    show (m.size + 1).toNat = _
    rw [hsucc, hbuilt.size, List.filter_append]
    simp [hlive.2]

/-- A live entry is put into the new slots: its key is not there yet and there is room. -/
theorem Rebuilt.put (hlaw : cfg.hashPolicy.Lawful) (hkey : cfg.keyPolicy.NonFailing)
    (hval : cfg.valuePolicy.NonFailing) (hold : Table cfg old)
    (hbuilt : Rebuilt cfg old newCount done m) (hlive : Live old i) (hnew : i ∉ done)
    (hroom : (done.filter fun j => (old.slots j).state = .occupied).length < newCount.toNat) :
    ∃ m', openPut cfg m (old.slots i).key (old.slots i).value = (.ok, m') ∧
      Rebuilt cfg old newCount (done ++ [i]) m' := by
  obtain ⟨t, hfree, -, hput⟩ := openPut_absent hkey hval hbuilt.table
    (hbuilt.absent hold hlive hnew) (hbuilt.hasEmpty hroom) (old.slots i).value
  exact ⟨_, hput, hbuilt.inserted hlaw hold hlive hnew hroom hfree⟩

/-- The next slot of a scan is none of those before. -/
theorem notMem_of_nodup_next {is : List ℕ} (hnodup : (done ++ [i] ++ is).Nodup) : i ∉ done := by
  intro hmem
  have hdisjoint := List.disjoint_of_nodup_append (List.nodup_append.mp hnodup).1
  exact hdisjoint hmem (by simp)

/-- If the next slot of a scan counts, fewer than all count before it. -/
theorem filter_lt_of_next {is : List ℕ} {p : ℕ → Prop} [DecidablePred p] {n : ℕ} (hp : p i)
    (hroom : ((done ++ [i] ++ is).filter fun j => p j).length ≤ n) :
    (done.filter fun j => p j).length < n := by
  rw [List.filter_append, List.filter_append, List.length_append, List.length_append] at hroom
  simp only [List.filter_singleton, hp, decide_true, cond_true, List.length_singleton] at hroom
  omega

/-- **The loop of `open_rehash`** puts every remaining live entry. -/
theorem Rebuilt.loop (hlaw : cfg.hashPolicy.Lawful) (hkey : cfg.keyPolicy.NonFailing)
    (hval : cfg.valuePolicy.NonFailing) (hold : Table cfg old) (is done : List ℕ)
    (m : OpenMap w K V) (hbuilt : Rebuilt cfg old newCount done m) (hnodup : (done ++ is).Nodup)
    (hbound : ∀ i ∈ is, i < old.buckets)
    (hroom : ((done ++ is).filter fun j => (old.slots j).state = .occupied).length ≤
      newCount.toNat) :
    ∃ m', rehashLoop cfg old.slots is m = (.ok, m') ∧
      Rebuilt cfg old newCount (done ++ is) m' := by
  induction is generalizing done m with
  | nil => exact ⟨m, rfl, by rwa [List.append_nil]⟩
  | cons i is ih =>
    have hassoc : done ++ i :: is = (done ++ [i]) ++ is := by simp
    have hrest : ∀ j ∈ is, j < old.buckets := fun j hj => hbound j (List.mem_cons_of_mem _ hj)
    rw [hassoc] at hnodup hroom ⊢
    by_cases hstate : (old.slots i).state = .occupied
    · have hlive : Live old i := ⟨hbound i List.mem_cons_self, hstate⟩
      have hnew := notMem_of_nodup_next hnodup
      have hlt := filter_lt_of_next hstate hroom
      obtain ⟨m', hput, hbuilt'⟩ := hbuilt.put hlaw hkey hval hold hlive hnew hlt
      obtain ⟨m'', hloop, hdone⟩ := ih (done ++ [i]) m' hbuilt' hnodup hrest hroom
      refine ⟨m'', ?_, hdone⟩
      simp [rehashLoop, hstate, hput, hloop]
    · obtain ⟨m'', hloop, hdone⟩ := ih (done ++ [i]) m (hbuilt.skip hstate) hnodup hrest hroom
      refine ⟨m'', ?_, hdone⟩
      simp [rehashLoop, hstate, hloop]

/-- **`open_rehash`** into enough slots: the same entries and no tombstones. -/
theorem openRehash_spec (hlaw : cfg.hashPolicy.Lawful) (hkey : cfg.keyPolicy.NonFailing)
    (hval : cfg.valuePolicy.NonFailing) (htable : Table cfg s)
    (newCount : BitVec w) (hroom : s.size.toNat < newCount.toNat)
    (halloc : cfg.allocRaw s.allocs (newCount * cfg.slotStride) = .ok) :
    ∃ m, openRehash cfg s newCount = (.ok, m) ∧ Table cfg m ∧ m.bucketCount = newCount ∧
      m.size = s.size ∧ Clean m ∧ ∀ k v, Holds cfg m k v ↔ Holds cfg s k v := by
  have hlength : ((List.range s.buckets).filter fun j => (s.slots j).state = .occupied).length =
      s.size.toNat := htable.count.symm
  have hfresh : Rebuilt cfg s newCount []
      (freshSlots cfg { s with allocs := s.allocs + 1 } newCount) := rebuilt_nil (by omega)
  obtain ⟨m, hloop, hbuilt⟩ := hfresh.loop hlaw hkey hval htable (List.range s.buckets) []
    _ List.nodup_range (fun i hi => List.mem_range.mp hi) (by
      rw [List.nil_append, hlength]
      exact hroom.le)
  have hsize : m.size = s.size := by
    apply BitVec.eq_of_toNat_eq
    rw [hbuilt.size, List.nil_append, hlength]
  refine ⟨m, ?_, hbuilt.table, hbuilt.bucketCount, hsize, hbuilt.clean, ?_⟩
  · have hbuckets' : ({ s with allocs := s.allocs + 1 } : OpenMap w K V).buckets = s.buckets := rfl
    simp [openRehash, halloc, hbuckets', hloop]
  · intro k v
    rw [hbuilt.holds]
    constructor
    · rintro ⟨j, -, h⟩
      exact ⟨j, h⟩
    · rintro ⟨j, h⟩
      exact ⟨j, List.mem_range.mpr h.1.1.1, h⟩

end OpenMap

end Memkit
