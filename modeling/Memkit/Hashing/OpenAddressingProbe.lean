import Memkit.Hashing.OpenAddressing

/-! # Linear probing

What `open_probe` returns, for any contents of the slots and then for a table that is in order. The
loop walks the slots in circular order from the home slot of the key; `Probed` lists the three ways
it can end. In a table in order (`Table`) a stored key is found where it is stored; an absent key
ends at the first empty slot, when there is one, and otherwise falls through the loop, which
reports `occupied` all the same. -/

namespace Memkit

namespace OpenMap

variable {w : ℕ} {K V : Type*}

/-! ## Circular order -/

/-- The slot met after `d` rounds from `h` in a circle of `n`. -/
def walk (n h d : ℕ) : ℕ := (h + d) % n

theorem walk_lt {n : ℕ} (hn : 0 < n) (h d : ℕ) : walk n h d < n := Nat.mod_lt _ hn

theorem walk_zero {n h : ℕ} (hh : h < n) : walk n h 0 = h := Nat.mod_eq_of_lt hh

/-- The source's step `index = (index + 1) % bucket_count_`. -/
theorem walk_succ (n h d : ℕ) : (walk n h d + 1) % n = walk n h (d + 1) := by
  rw [walk, walk, Nat.mod_add_mod, Nat.add_assoc]

/-- Within one cycle no slot is met twice. -/
theorem walk_inj {n h d e : ℕ} (hd : d < n) (he : e < n) (heq : walk n h d = walk n h e) :
    d = e := by
  rcases Nat.le_total d e with hle | hle
  · have hsum := WrapCounter.eq_of_mod_eq (show h + d ≤ h + e by omega) (by omega) heq
    omega
  · have hsum := WrapCounter.eq_of_mod_eq (show h + e ≤ h + d by omega) (by omega) heq.symm
    omega

/-- Within one cycle every slot is met. -/
theorem exists_walk_eq {n h i : ℕ} (hh : h < n) (hi : i < n) : ∃ d < n, walk n h d = i := by
  by_cases hle : h ≤ i
  · refine ⟨i - h, by omega, ?_⟩
    rw [walk, Nat.add_sub_cancel' hle, Nat.mod_eq_of_lt hi]
  · refine ⟨i + n - h, by omega, ?_⟩
    rw [walk, Nat.add_sub_cancel' (by omega), Nat.add_mod_right, Nat.mod_eq_of_lt hi]

/-! ## Any slots -/

/-- A slot that the probe for `key` passes by. -/
def Passes (equal : K → K → Bool) (slots : ℕ → Slot K V) (key : K) (i : ℕ) : Prop :=
  (slots i).state = .deleted ∨ (slots i).state = .occupied ∧ equal (slots i).key key = false

/-- The first tombstone among the first `d` slots of the walk. -/
def firstTombstone (slots : ℕ → Slot K V) (n h d : ℕ) : Option ℕ :=
  ((List.range d).map (walk n h)).find? fun i => (slots i).state = .deleted

/-- The slot reported when the probe stops after `d` rounds without a hit. -/
def target (slots : ℕ → Slot K V) (n h : ℕ) (forInsert : Bool) (d : ℕ) : ℕ :=
  if forInsert then (firstTombstone slots n h d).getD (walk n h d) else walk n h d

/-- The three ways a probe ends. -/
inductive Probed (equal : K → K → Bool) (slots : ℕ → Slot K V) (n h : ℕ) (key : K)
    (forInsert : Bool) : SlotState × ℕ → Prop
  /-- At an empty slot. -/
  | empty (d : ℕ) (hd : d < n) (hpass : ∀ e < d, Passes equal slots key (walk n h e))
      (hstate : (slots (walk n h d)).state = .empty) :
      Probed equal slots n h key forInsert (.empty, target slots n h forInsert d)
  /-- At an entry with an equal key. -/
  | hit (d : ℕ) (hd : d < n) (hpass : ∀ e < d, Passes equal slots key (walk n h e))
      (hstate : (slots (walk n h d)).state = .occupied)
      (hequal : equal (slots (walk n h d)).key key = true) :
      Probed equal slots n h key forInsert (.occupied, walk n h d)
  /-- After a full cycle. -/
  | cycled (hpass : ∀ e < n, Passes equal slots key (walk n h e)) :
      Probed equal slots n h key forInsert (.occupied, target slots n h forInsert n)

variable {equal : K → K → Bool} {slots : ℕ → Slot K V} {n h : ℕ} {key : K} {forInsert : Bool}

theorem firstTombstone_succ (d : ℕ) :
    firstTombstone slots n h (d + 1) =
      (firstTombstone slots n h d).or
        (if (slots (walk n h d)).state = .deleted then some (walk n h d) else none) := by
  simp only [firstTombstone, List.range_succ, List.map_append, List.find?_append, List.map_cons,
    List.map_nil, List.find?_singleton, decide_eq_true_eq]

/-- A tombstone found is a tombstone of the walk. -/
theorem firstTombstone_eq_some {d i : ℕ} (hfind : firstTombstone slots n h d = some i) :
    (slots i).state = .deleted ∧ ∃ e < d, walk n h e = i := by
  constructor
  · simpa using List.find?_some hfind
  · obtain ⟨e, he, rfl⟩ := List.mem_map.mp (List.mem_of_find?_eq_some hfind)
    exact ⟨e, List.mem_range.mp he, rfl⟩

/-- No tombstone found means that the walk met none. -/
theorem firstTombstone_eq_none {d : ℕ} :
    firstTombstone slots n h d = none ↔ ∀ e < d, (slots (walk n h e)).state ≠ .deleted := by
  simp [firstTombstone, List.find?_eq_none]

/-- One more slot is passed. -/
theorem passes_succ {d : ℕ} (hpass : ∀ e < d, Passes equal slots key (walk n h e))
    (hd : Passes equal slots key (walk n h d)) :
    ∀ e < d + 1, Passes equal slots key (walk n h e) := by
  intro e he
  rcases Nat.lt_succ_iff_lt_or_eq.mp he with hlt | rfl
  · exact hpass e hlt
  · exact hd

/-- **The loop of `open_probe`** from its `d`-th round on. -/
theorem probeLoop_probed (probes d : ℕ) (hsum : d + probes = n)
    (hpass : ∀ e < d, Passes equal slots key (walk n h e)) :
    Probed equal slots n h key forInsert
      (probeLoop equal slots n key forInsert probes (walk n h d)
        (if forInsert then firstTombstone slots n h d else none)) := by
  induction probes generalizing d with
  | zero =>
    obtain rfl : d = n := by omega
    have hend : Probed equal slots d h key forInsert (.occupied, target slots d h forInsert d) :=
      .cycled hpass
    cases forInsert <;> exact hend
  | succ probes ih =>
    have hd : d < n := by omega
    unfold probeLoop
    cases hstate : (slots (walk n h d)).state with
    | empty =>
      have hend : Probed equal slots n h key forInsert (.empty, target slots n h forInsert d) :=
        .empty d hd hpass hstate
      cases forInsert <;> exact hend
    | deleted =>
      have hnext := ih (d + 1) (by omega) (passes_succ hpass (.inl hstate))
      -- the accumulator after this round is the first tombstone of one more round
      have hacc : (if forInsert && (if forInsert then firstTombstone slots n h d else none).isNone
            then some (walk n h d) else if forInsert then firstTombstone slots n h d else none) =
          if forInsert then firstTombstone slots n h (d + 1) else none := by
        rw [firstTombstone_succ, if_pos hstate]
        cases forInsert with
        | false => rfl
        | true => cases hfound : firstTombstone slots n h d <;> simp
      simp only [walk_succ, hacc]
      exact hnext
    | occupied =>
      by_cases hequal : equal (slots (walk n h d)).key key = true
      · simp only [hequal, if_true]
        exact Probed.hit d hd hpass hstate hequal
      · have hfalse : equal (slots (walk n h d)).key key = false := by simpa using hequal
        have hnext := ih (d + 1) (by omega) (passes_succ hpass (.inr ⟨hstate, hfalse⟩))
        have hsame : firstTombstone slots n h (d + 1) = firstTombstone slots n h d := by
          rw [firstTombstone_succ, hstate, if_neg (by decide), Option.or_none]
        rw [hsame] at hnext
        simp only [hfalse, walk_succ]
        exact hnext

/-- **`open_probe`** ends in one of the three ways. -/
theorem openProbe_probed (cfg : HashMapConfig w K V) (s : OpenMap w K V) (hpos : 0 < s.buckets)
    (key : K) (forInsert : Bool) :
    Probed cfg.hashPolicy.equal s.slots s.buckets (home cfg s.buckets key) key forInsert
      (openProbe cfg s key forInsert) := by
  have hhome : home cfg s.buckets key < s.buckets := Nat.mod_lt _ hpos
  have hloop : Probed cfg.hashPolicy.equal s.slots s.buckets (home cfg s.buckets key) key forInsert
      (probeLoop cfg.hashPolicy.equal s.slots s.buckets key forInsert s.buckets
        (walk s.buckets (home cfg s.buckets key) 0)
        (if forInsert then firstTombstone s.slots s.buckets (home cfg s.buckets key) 0
          else none)) :=
    probeLoop_probed s.buckets 0 (Nat.zero_add _) (by simp)
  rw [walk_zero hhome] at hloop
  cases forInsert <;> exact hloop

/-! ## Tables in order -/

/-- Slot `i` holds a live entry. -/
def Live (s : OpenMap w K V) (i : ℕ) : Prop := i < s.buckets ∧ (s.slots i).state = .occupied

/-- Slot `i` holds the live entry of `key`. -/
def StoredAt (cfg : HashMapConfig w K V) (s : OpenMap w K V) (key : K) (i : ℕ) : Prop :=
  Live s i ∧ cfg.hashPolicy.equal (s.slots i).key key = true

/-- Some slot is empty. -/
def HasEmpty (s : OpenMap w K V) : Prop := ∃ i < s.buckets, (s.slots i).state = .empty

instance (s : OpenMap w K V) : Decidable (HasEmpty s) :=
  inferInstanceAs (Decidable (∃ i < s.buckets, (s.slots i).state = .empty))

/-- Some live entry has a key equal to `key`. -/
def Stored (cfg : HashMapConfig w K V) (s : OpenMap w K V) (key : K) : Prop :=
  ∃ i, StoredAt cfg s key i

instance (cfg : HashMapConfig w K V) (s : OpenMap w K V) (key : K) :
    Decidable (Stored cfg s key) :=
  decidable_of_iff
    (∃ i < s.buckets, (s.slots i).state = .occupied ∧
      cfg.hashPolicy.equal (s.slots i).key key = true)
    (by simp only [Stored, StoredAt, Live, and_assoc])

/-- A table in order: live entries have distinct keys and lie where a probe from their home slot
meets no empty slot before them, and `size_` counts them. -/
structure Table (cfg : HashMapConfig w K V) (s : OpenMap w K V) : Prop where
  pos : 0 < s.buckets
  reach : ∀ i, Live s i → ∃ d < s.buckets, walk s.buckets (home cfg s.buckets (s.slots i).key) d = i
    ∧ ∀ e < d, (s.slots (walk s.buckets (home cfg s.buckets (s.slots i).key) e)).state ≠ .empty
  distinct : ∀ i j, Live s i → Live s j →
    cfg.hashPolicy.equal (s.slots i).key (s.slots j).key = true → i = j
  count : s.size.toNat =
    ((Finset.range s.buckets).filter fun i => (s.slots i).state = .occupied).card

variable {cfg : HashMapConfig w K V} {s : OpenMap w K V} {i : ℕ}

namespace Table

/-- A table with an empty slot has fewer entries than slots. -/
theorem size_lt (htable : Table cfg s) (hempty : HasEmpty s) : s.size.toNat < s.buckets := by
  obtain ⟨i, hi, hstate⟩ := hempty
  rw [htable.count]
  have hlt : ((Finset.range s.buckets).filter fun i => (s.slots i).state = .occupied).card <
      (Finset.range s.buckets).card := by
    apply Finset.card_lt_card
    rw [Finset.filter_ssubset]
    refine ⟨i, Finset.mem_range.mpr hi, ?_⟩
    rw [hstate]
    decide
  rwa [Finset.card_range] at hlt

/-- A stored key has one slot. -/
theorem storedAt_unique (hlaw : cfg.hashPolicy.Lawful) (htable : Table cfg s) {j : ℕ}
    (hi : StoredAt cfg s key i) (hj : StoredAt cfg s key j) : i = j := by
  apply htable.distinct i j hi.1 hj.1
  exact hlaw.trans _ _ _ hi.2 (hlaw.symm _ _ hj.2)

/-- The probe for a stored key finds it. -/
theorem probe_stored (hlaw : cfg.hashPolicy.Lawful) (htable : Table cfg s)
    (hi : StoredAt cfg s key i) (forInsert : Bool) :
    openProbe cfg s key forInsert = (.occupied, i) := by
  obtain ⟨d, hd, hwalk, hfull⟩ := htable.reach i hi.1
  have hhome : home cfg s.buckets (s.slots i).key = home cfg s.buckets key := by
    rw [home, home, hlaw.hash_eq _ _ hi.2]
  rw [hhome] at hwalk hfull
  have hblock : ¬ Passes cfg.hashPolicy.equal s.slots key
      (walk s.buckets (home cfg s.buckets key) d) := by
    rw [hwalk, Passes, hi.1.2, hi.2]
    simp
  have hprobed := openProbe_probed cfg s htable.pos key forInsert
  revert hprobed
  generalize openProbe cfg s key forInsert = result
  intro hprobed
  cases hprobed with
  | empty d' hd' hpass hstate =>
    -- the walk cannot stop before `d`, at `d`, or after it
    rcases Nat.lt_trichotomy d' d with hlt | rfl | hgt
    · exact absurd hstate (hfull d' hlt)
    · rw [hwalk, hi.1.2] at hstate
      cases hstate
    · exact absurd (hpass d hgt) hblock
  | hit d' hd' hpass hstate hequal =>
    have hstored : StoredAt cfg s key (walk s.buckets (home cfg s.buckets key) d') :=
      ⟨⟨walk_lt htable.pos _ _, hstate⟩, hequal⟩
    rw [htable.storedAt_unique hlaw hstored hi]
  | cycled hpass => exact absurd (hpass d hd) hblock

/-- The probe for an absent key ends at an empty slot when there is one. -/
theorem probe_absent (htable : Table cfg s) (habsent : ¬ Stored cfg s key)
    (hempty : HasEmpty s) (forInsert : Bool) :
    ∃ d < s.buckets,
      (∀ e < d, Passes cfg.hashPolicy.equal s.slots key
        (walk s.buckets (home cfg s.buckets key) e)) ∧
      (s.slots (walk s.buckets (home cfg s.buckets key) d)).state = .empty ∧
      openProbe cfg s key forInsert =
        (.empty, target s.slots s.buckets (home cfg s.buckets key) forInsert d) := by
  have hprobed := openProbe_probed cfg s htable.pos key forInsert
  revert hprobed
  generalize openProbe cfg s key forInsert = result
  intro hprobed
  cases hprobed with
  | empty d hd hpass hstate => exact ⟨d, hd, hpass, hstate, rfl⟩
  | hit d hd hpass hstate hequal =>
    exact absurd ⟨_, ⟨walk_lt htable.pos _ _, hstate⟩, hequal⟩ habsent
  | cycled hpass =>
    obtain ⟨i, hi, hstate⟩ := hempty
    have hhome : home cfg s.buckets key < s.buckets := Nat.mod_lt _ htable.pos
    obtain ⟨d, hd, rfl⟩ := exists_walk_eq hhome hi
    rcases hpass d hd with hdel | ⟨hocc, -⟩
    · rw [hdel] at hstate
      cases hstate
    · rw [hocc] at hstate
      cases hstate

/-- **The fall-through**: with no empty slot left the probe for an absent key reports `occupied`
too, at the first tombstone of the walk (when inserting) or else at the home slot. -/
theorem probe_absent_full (htable : Table cfg s) (habsent : ¬ Stored cfg s key)
    (hfull : ¬ HasEmpty s) (forInsert : Bool) :
    openProbe cfg s key forInsert =
      (.occupied, target s.slots s.buckets (home cfg s.buckets key) forInsert s.buckets) := by
  have hprobed := openProbe_probed cfg s htable.pos key forInsert
  revert hprobed
  generalize openProbe cfg s key forInsert = result
  intro hprobed
  cases hprobed with
  | empty d hd hpass hstate => exact absurd ⟨_, walk_lt htable.pos _ _, hstate⟩ hfull
  | hit d hd hpass hstate hequal =>
    exact absurd ⟨_, ⟨walk_lt htable.pos _ _, hstate⟩, hequal⟩ habsent
  | cycled hpass => rfl

end Table

end OpenMap

end Memkit
