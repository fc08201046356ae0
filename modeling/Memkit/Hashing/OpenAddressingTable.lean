import Memkit.Hashing.OpenAddressingProbe

/-! # Tables in order: insertion, update, removal and rehash

What each operation of the open-addressing table does to a table in order, when element copies do
not fail. `Holds` reads the table as a set of key-value pairs; every lemma says that the table
stays in order and which pairs it then holds. -/

namespace Memkit

namespace OpenMap

variable {w : ℕ} {K V : Type*} {cfg : HashMapConfig w K V} {s : OpenMap w K V} {key : K}
  {value : V} {i t : ℕ}

/-- The table holds `value` for `key`. -/
def Holds (cfg : HashMapConfig w K V) (s : OpenMap w K V) (key : K) (value : V) : Prop :=
  ∃ i, StoredAt cfg s key i ∧ (s.slots i).value = value

/-- A slot that a probe for `key` reaches without meeting an empty one and that holds no entry. -/
def FreeFor (cfg : HashMapConfig w K V) (s : OpenMap w K V) (key : K) (t : ℕ) : Prop :=
  t < s.buckets ∧ (s.slots t).state ≠ .occupied ∧
    ∃ d < s.buckets, walk s.buckets (home cfg s.buckets key) d = t ∧
      ∀ e < d, (s.slots (walk s.buckets (home cfg s.buckets key) e)).state ≠ .empty

/-- The table after a new entry is written to slot `t`. -/
def inserted (s : OpenMap w K V) (t : ℕ) (key : K) (value : V) : OpenMap w K V :=
  { s.setSlot t { state := .occupied, key, value } with
    size := s.size + 1
    copies := s.copies + 2 }

/-- The table after the value in slot `t` is overwritten. -/
def assigned (s : OpenMap w K V) (t : ℕ) (value : V) : OpenMap w K V :=
  { s with copies := s.copies + 1 }.setSlot t { s.slots t with value := value }

/-- The table after the entry in slot `t` is destroyed and its slot becomes a tombstone. -/
def vacated (cfg : HashMapConfig w K V) (s : OpenMap w K V) (t : ℕ) : OpenMap w K V :=
  { s.setSlot t
      { state := .deleted
        key := cfg.keyPolicy.destroy (s.slots t).key
        value := cfg.valuePolicy.destroy (s.slots t).value } with
    size := s.size - 1 }

/-! ## Slots -/

@[simp] theorem buckets_inserted : (inserted s t key value).buckets = s.buckets := rfl

@[simp] theorem buckets_assigned : (assigned s t value).buckets = s.buckets := rfl

@[simp] theorem buckets_vacated : (vacated cfg s t).buckets = s.buckets := rfl

theorem slots_inserted_self : (inserted s t key value).slots t = ⟨.occupied, key, value⟩ := by
  simp [inserted, setSlot]

theorem slots_inserted_of_ne (hi : i ≠ t) : (inserted s t key value).slots i = s.slots i := by
  simp [inserted, setSlot, hi]

theorem slots_assigned_self :
    (assigned s t value).slots t = { s.slots t with value := value } := by
  simp [assigned, setSlot]

theorem slots_assigned_of_ne (hi : i ≠ t) : (assigned s t value).slots i = s.slots i := by
  simp [assigned, setSlot, hi]

theorem slots_vacated_self :
    (vacated cfg s t).slots t =
      ⟨.deleted, cfg.keyPolicy.destroy (s.slots t).key,
        cfg.valuePolicy.destroy (s.slots t).value⟩ := by
  simp [vacated, setSlot]

theorem slots_vacated_of_ne (hi : i ≠ t) : (vacated cfg s t).slots i = s.slots i := by
  simp [vacated, setSlot, hi]

/-- Overwriting a value keeps every state and key. -/
theorem state_assigned (i : ℕ) : ((assigned s t value).slots i).state = (s.slots i).state := by
  by_cases hi : i = t
  · rw [hi, slots_assigned_self]
  · rw [slots_assigned_of_ne hi]

theorem key_assigned (i : ℕ) : ((assigned s t value).slots i).key = (s.slots i).key := by
  by_cases hi : i = t
  · rw [hi, slots_assigned_self]
  · rw [slots_assigned_of_ne hi]

/-- Insertion makes no slot empty. -/
theorem state_inserted_ne_empty (hi : (s.slots i).state ≠ .empty) :
    ((inserted s t key value).slots i).state ≠ .empty := by
  by_cases heq : i = t
  · rw [heq, slots_inserted_self]
    simp
  · rwa [slots_inserted_of_ne heq]

/-- A tombstone is not empty. -/
theorem state_vacated_ne_empty (hi : (s.slots i).state ≠ .empty) :
    ((vacated cfg s t).slots i).state ≠ .empty := by
  by_cases heq : i = t
  · rw [heq, slots_vacated_self]
    simp
  · rwa [slots_vacated_of_ne heq]

theorem live_inserted (ht : t < s.buckets) :
    Live (inserted s t key value) i ↔ i = t ∨ Live s i := by
  by_cases hi : i = t
  · subst hi
    simp [Live, slots_inserted_self, ht]
  · simp [Live, slots_inserted_of_ne hi, hi]

theorem live_assigned : Live (assigned s t value) i ↔ Live s i := by
  simp [Live, state_assigned]

theorem live_vacated : Live (vacated cfg s t) i ↔ i ≠ t ∧ Live s i := by
  by_cases hi : i = t
  · subst hi
    simp [Live, slots_vacated_self]
  · simp [Live, slots_vacated_of_ne hi, hi]

/-! ## Insertion -/

namespace Table

/-- Writing a new entry to a free slot on its walk keeps the table in order. -/
theorem inserted (hlaw : cfg.hashPolicy.Lawful) (htable : Table cfg s)
    (habsent : ¬ Stored cfg s key) (hfree : FreeFor cfg s key t) :
    Table cfg (inserted s t key value) := by
  obtain ⟨ht, hstate, d, hd, hwalk, hfull⟩ := hfree
  have hnew : ∀ i, Live s i → i ≠ t := by
    rintro i hi rfl
    exact hstate hi.2
  refine ⟨htable.pos, ?_, ?_, ?_⟩
  · intro i hi
    rcases (live_inserted ht).mp hi with rfl | hold
    · rw [slots_inserted_self]
      exact ⟨d, hd, hwalk, fun e he => state_inserted_ne_empty (hfull e he)⟩
    · rw [slots_inserted_of_ne (hnew i hold)]
      obtain ⟨d', hd', hwalk', hfull'⟩ := htable.reach i hold
      exact ⟨d', hd', hwalk', fun e he => state_inserted_ne_empty (hfull' e he)⟩
  · intro i j hi hj hequal
    rcases (live_inserted ht).mp hi with rfl | hiold
    · rcases (live_inserted ht).mp hj with rfl | hjold
      · rfl
      · rw [slots_inserted_self, slots_inserted_of_ne (hnew j hjold)] at hequal
        exact absurd ⟨j, hjold, hlaw.symm _ _ hequal⟩ habsent
    · rcases (live_inserted ht).mp hj with rfl | hjold
      · rw [slots_inserted_self, slots_inserted_of_ne (hnew i hiold)] at hequal
        exact absurd ⟨i, hiold, hequal⟩ habsent
      · rw [slots_inserted_of_ne (hnew i hiold), slots_inserted_of_ne (hnew j hjold)] at hequal
        exact htable.distinct i j hiold hjold hequal
  · have hset : ((Finset.range s.buckets).filter fun i =>
          ((OpenMap.inserted s t key value).slots i).state = .occupied) =
        insert t ((Finset.range s.buckets).filter fun i => (s.slots i).state = .occupied) := by
      ext i
      by_cases hi : i = t
      · subst hi
        simp [slots_inserted_self, ht]
      · simp [slots_inserted_of_ne hi, hi]
    have hcard : ((Finset.range s.buckets).filter fun i =>
        ((OpenMap.inserted s t key value).slots i).state = .occupied).card = s.size.toNat + 1 := by
      rw [hset, Finset.card_insert_of_notMem (by simp [hstate]), ← htable.count]
    have hle := Finset.card_filter_le (Finset.range s.buckets) fun i =>
      ((OpenMap.inserted s t key value).slots i).state = .occupied
    rw [hcard, Finset.card_range] at hle
    rw [buckets_inserted, hcard]
    exact WrapCounter.toNat_succ (c := s.bucketCount) hle

end Table

/-- What the table holds after an insertion. -/
theorem holds_inserted (hlaw : cfg.hashPolicy.Lawful) (habsent : ¬ Stored cfg s key)
    (ht : t < s.buckets) (hstate : (s.slots t).state ≠ .occupied) (k : K) (v : V) :
    Holds cfg (inserted s t key value) k v ↔
      if cfg.hashPolicy.equal key k then value = v else Holds cfg s k v := by
  have hold : ∀ i, StoredAt cfg s k i → i ≠ t := by
    rintro i hi rfl
    exact hstate hi.1.2
  constructor
  · rintro ⟨i, ⟨hlive, hequal⟩, hv⟩
    rcases (live_inserted ht).mp hlive with rfl | hlive'
    · rw [slots_inserted_self] at hequal hv
      rw [if_pos hequal]
      exact hv
    · have hi : i ≠ t := by
        rintro rfl
        exact hstate hlive'.2
      rw [slots_inserted_of_ne hi] at hequal hv
      rw [if_neg]
      · exact ⟨i, ⟨hlive', hequal⟩, hv⟩
      · intro hkey
        exact habsent ⟨i, hlive', hlaw.trans _ _ _ hequal (hlaw.symm _ _ hkey)⟩
  · intro h
    split at h
    · rename_i hequal
      refine ⟨t, ⟨(live_inserted ht).mpr (.inl rfl), ?_⟩, ?_⟩
      · rw [slots_inserted_self]
        exact hequal
      · rw [slots_inserted_self]
        exact h
    · obtain ⟨i, hi, hv⟩ := h
      refine ⟨i, ⟨(live_inserted ht).mpr (.inr hi.1), ?_⟩, ?_⟩
      · rw [slots_inserted_of_ne (hold i hi)]
        exact hi.2
      · rw [slots_inserted_of_ne (hold i hi)]
        exact hv

/-! ## Update -/

/-- Overwriting a value keeps the table in order. -/
theorem Table.assigned (htable : Table cfg s) : Table cfg (assigned s t value) := by
  refine ⟨htable.pos, ?_, ?_, ?_⟩
  · intro i hi
    simpa only [key_assigned, state_assigned, buckets_assigned] using
      htable.reach i (live_assigned.mp hi)
  · intro i j hi hj hequal
    rw [key_assigned, key_assigned] at hequal
    exact htable.distinct i j (live_assigned.mp hi) (live_assigned.mp hj) hequal
  · simp only [state_assigned, buckets_assigned]
    exact htable.count

/-- What the table holds after the value of a stored key is overwritten. -/
theorem holds_assigned (hlaw : cfg.hashPolicy.Lawful) (htable : Table cfg s)
    (hstored : StoredAt cfg s key t) (k : K) (v : V) :
    Holds cfg (assigned s t value) k v ↔
      if cfg.hashPolicy.equal key k then value = v else Holds cfg s k v := by
  have hsame : ∀ i, StoredAt cfg (assigned s t value) k i ↔ StoredAt cfg s k i := by
    intro i
    rw [StoredAt, StoredAt, live_assigned, key_assigned]
  constructor
  · rintro ⟨i, hi', hv⟩
    have hi := (hsame i).mp hi'
    clear hi'
    by_cases hequal : cfg.hashPolicy.equal key k = true
    · have hkey : StoredAt cfg s key i := ⟨hi.1, hlaw.trans _ _ _ hi.2 (hlaw.symm _ _ hequal)⟩
      obtain rfl := htable.storedAt_unique hlaw hkey hstored
      rw [slots_assigned_self] at hv
      rw [if_pos hequal]
      exact hv
    · have hne : i ≠ t := by
        rintro rfl
        exact hequal (hlaw.trans _ _ _ (hlaw.symm _ _ hstored.2) hi.2)
      rw [slots_assigned_of_ne hne] at hv
      rw [if_neg hequal]
      exact ⟨i, hi, hv⟩
  · intro h
    split at h
    · rename_i hequal
      refine ⟨t, (hsame t).mpr ⟨hstored.1, hlaw.trans _ _ _ hstored.2 hequal⟩, ?_⟩
      rw [slots_assigned_self]
      exact h
    · rename_i hequal
      obtain ⟨i, hi, hv⟩ := h
      have hne : i ≠ t := by
        rintro rfl
        exact hequal (hlaw.trans _ _ _ (hlaw.symm _ _ hstored.2) hi.2)
      refine ⟨i, (hsame i).mpr hi, ?_⟩
      rw [slots_assigned_of_ne hne]
      exact hv

/-! ## Removal -/

/-- Turning a live slot into a tombstone keeps the table in order. -/
theorem Table.vacated (htable : Table cfg s) (ht : Live s t) : Table cfg (vacated cfg s t) := by
  refine ⟨htable.pos, ?_, ?_, ?_⟩
  · intro i hi
    obtain ⟨hne, hlive⟩ := live_vacated.mp hi
    obtain ⟨d, hd, hwalk, hfull⟩ := htable.reach i hlive
    rw [slots_vacated_of_ne hne]
    exact ⟨d, hd, hwalk, fun e he => state_vacated_ne_empty (hfull e he)⟩
  · intro i j hi hj hequal
    obtain ⟨hine, hilive⟩ := live_vacated.mp hi
    obtain ⟨hjne, hjlive⟩ := live_vacated.mp hj
    rw [slots_vacated_of_ne hine, slots_vacated_of_ne hjne] at hequal
    exact htable.distinct i j hilive hjlive hequal
  · have hset : ((Finset.range s.buckets).filter fun i =>
          ((OpenMap.vacated cfg s t).slots i).state = .occupied) =
        ((Finset.range s.buckets).filter fun i => (s.slots i).state = .occupied).erase t := by
      ext i
      by_cases hi : i = t
      · subst hi
        simp [slots_vacated_self]
      · simp [slots_vacated_of_ne hi, hi]
    have hmem : t ∈ (Finset.range s.buckets).filter fun i => (s.slots i).state = .occupied :=
      Finset.mem_filter.mpr ⟨Finset.mem_range.mpr ht.1, ht.2⟩
    have hcard := Finset.card_erase_add_one hmem
    rw [← hset, ← htable.count] at hcard
    have hne : s.size ≠ 0 := by
      intro h0
      have hzero : s.size.toNat = 0 := by simp [h0]
      omega
    have hpred : (s.size - 1).toNat + 1 = s.size.toNat := WrapCounter.toNat_pred hne
    show (s.size - 1).toNat = _
    rw [buckets_vacated]
    omega

/-- What the table holds after the entry of a stored key is removed. -/
theorem holds_vacated (hlaw : cfg.hashPolicy.Lawful) (htable : Table cfg s)
    (hstored : StoredAt cfg s key t) (k : K) (v : V) :
    Holds cfg (vacated cfg s t) k v ↔ cfg.hashPolicy.equal key k = false ∧ Holds cfg s k v := by
  constructor
  · rintro ⟨i, ⟨hlive, hequal⟩, hv⟩
    obtain ⟨hne, hlive⟩ := live_vacated.mp hlive
    rw [slots_vacated_of_ne hne] at hequal hv
    refine ⟨?_, i, ⟨hlive, hequal⟩, hv⟩
    rw [Bool.eq_false_iff]
    intro hkey
    have hi : StoredAt cfg s key i := ⟨hlive, hlaw.trans _ _ _ hequal (hlaw.symm _ _ hkey)⟩
    exact hne (htable.storedAt_unique hlaw hi hstored)
  · rintro ⟨hkey, i, hi, hv⟩
    have hne : i ≠ t := by
      rintro rfl
      rw [hlaw.trans _ _ _ (hlaw.symm _ _ hstored.2) hi.2] at hkey
      cases hkey
    refine ⟨i, ⟨live_vacated.mpr ⟨hne, hi.1⟩, ?_⟩, ?_⟩
    · rw [slots_vacated_of_ne hne]
      exact hi.2
    · rw [slots_vacated_of_ne hne]
      exact hv

end OpenMap

end Memkit
