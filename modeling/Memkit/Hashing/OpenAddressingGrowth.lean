import Memkit.Hashing.OpenAddressingMap

/-! # Does a growable table keep an empty slot?

Growth is decided from `size_`, but tombstones use up empty slots as well. As long as some slot is
empty no operation goes wrong, and growth always makes room; what takes the last empty slot is a
put that does not grow the table, of an absent key with no tombstone on its way to that slot
(`TakesLastEmpty`). -/

namespace Memkit

namespace OpenMap

variable {w : ℕ} {K V : Type*} {cfg : HashMapConfig w K V} {s : OpenMap w K V} {key : K}
  {value : V} {t : ℕ}

/-- A put of `key` takes the last empty slot: the table does not grow, the key is absent, one slot
is empty, and no tombstone lies between it and the home slot of the key. -/
def TakesLastEmpty (cfg : HashMapConfig w K V) (s : OpenMap w K V) (key : K) : Prop :=
  shouldGrow cfg.growable s.bucketCount s.size = false ∧ ¬ Stored cfg s key ∧
    ∃ d < s.buckets,
      (s.slots (walk s.buckets (home cfg s.buckets key) d)).state = .empty ∧
      (∀ j < s.buckets, (s.slots j).state = .empty →
        j = walk s.buckets (home cfg s.buckets key) d) ∧
      ∀ e < d, (s.slots (walk s.buckets (home cfg s.buckets key) e)).state ≠ .deleted

instance (cfg : HashMapConfig w K V) (s : OpenMap w K V) (key : K) :
    Decidable (TakesLastEmpty cfg s key) :=
  inferInstanceAs (Decidable (_ ∧ _ ∧ ∃ d < s.buckets, _ ∧ _ ∧ _))

/-- The call is not a put that takes the last empty slot. -/
def LeavesEmpty (cfg : HashMapConfig w K V) (s : OpenMap w K V) : Call K V → Prop
  | .put (some key) (some _) => ¬ TakesLastEmpty cfg s key
  | _ => True

instance (cfg : HashMapConfig w K V) (s : OpenMap w K V) : ∀ c, Decidable (LeavesEmpty cfg s c)
  | .put (some key) (some _) => inferInstanceAs (Decidable (¬ TakesLastEmpty cfg s key))
  | .put none _ | .put (some _) none | .remove _ | .get _ _ | .contains _ | .clear =>
    isTrue trivial

/-- What the growable table owes: the call is not refused as full, and some slot is empty after
it. -/
def KeepsFreeSlot (cfg : HashMapConfig w K V) (s : OpenMap w K V) (c : Call K V) : Prop :=
  (call cfg s c).1 ≠ .put .full ∧ HasEmpty (call cfg s c).2

/-- When the table is to grow, doubling the bucket count does not wrap. -/
def CanDouble (cfg : HashMapConfig w K V) (s : OpenMap w K V) (_ : Call K V) : Prop :=
  shouldGrow cfg.growable s.bucketCount s.size = true → 2 * s.buckets < 2 ^ w

instance (cfg : HashMapConfig w K V) (s : OpenMap w K V) (c : Call K V) :
    Decidable (CanDouble cfg s c) :=
  inferInstanceAs (Decidable (_ → _))

/-! ## Empty slots -/

/-- After an insertion the other empty slots are still empty. -/
theorem hasEmpty_inserted (hstate : t < s.buckets) :
    HasEmpty (inserted s t key value) ↔ ∃ j < s.buckets, j ≠ t ∧ (s.slots j).state = .empty := by
  constructor
  · rintro ⟨j, hj, hempty⟩
    have hne : j ≠ t := by
      rintro rfl
      rw [slots_inserted_self] at hempty
      cases hempty
    rw [slots_inserted_of_ne hne] at hempty
    exact ⟨j, hj, hne, hempty⟩
  · rintro ⟨j, hj, hne, hempty⟩
    refine ⟨j, hj, ?_⟩
    rw [slots_inserted_of_ne hne]
    exact hempty

theorem HasEmpty.assigned (hempty : HasEmpty s) : HasEmpty (assigned s t value) := by
  obtain ⟨j, hj, hstate⟩ := hempty
  exact ⟨j, hj, (state_assigned j).trans hstate⟩

theorem HasEmpty.vacated (hempty : HasEmpty s) (ht : Live s t) : HasEmpty (vacated cfg s t) := by
  obtain ⟨j, hj, hstate⟩ := hempty
  have hne : j ≠ t := by
    rintro rfl
    rw [ht.2] at hstate
    cases hstate
  refine ⟨j, hj, ?_⟩
  rw [slots_vacated_of_ne hne]
  exact hstate

/-- A put that does not grow the table leaves an empty slot exactly if it does not take the last
one. -/
theorem hasEmpty_openPut_iff (hlaw : cfg.hashPolicy.Lawful) (hkey : cfg.keyPolicy.NonFailing)
    (hval : cfg.valuePolicy.NonFailing) (htable : Table cfg s) (hempty : HasEmpty s)
    (hgrow : shouldGrow cfg.growable s.bucketCount s.size = false) (key : K) (value : V) :
    (openPut cfg s key value).1 = .ok ∧
      (HasEmpty (openPut cfg s key value).2 ↔ ¬ TakesLastEmpty cfg s key) := by
  by_cases hstored : Stored cfg s key
  · obtain ⟨i, hi⟩ := hstored
    rw [openPut_stored hlaw hval htable hi]
    exact ⟨rfl, iff_of_true hempty.assigned fun htakes => htakes.2.1 ⟨i, hi⟩⟩
  · obtain ⟨d, hd, hpass, hstate, hprobe⟩ := htable.probe_absent hstored hempty true
    have hfree := freeFor_target htable.pos hd hpass hstate
    rw [openPut_of_probe_empty hkey hval hprobe]
    refine ⟨rfl, ?_⟩
    rw [hasEmpty_inserted hfree.1, ← not_iff_not, not_not]
    constructor
    · -- every empty slot is the one taken, so it is the slot where the probe stopped
      intro hnone
      have honly : ∀ j < s.buckets, (s.slots j).state = .empty →
          j = target s.slots s.buckets (home cfg s.buckets key) true d := by
        intro j hj hj'
        by_contra hne
        exact hnone ⟨j, hj, hne, hj'⟩
      have hstop := honly _ (walk_lt htable.pos _ _) hstate
      have hclear : firstTombstone s.slots s.buckets (home cfg s.buckets key) d = none := by
        cases hfound : firstTombstone s.slots s.buckets (home cfg s.buckets key) d with
        | none => rfl
        | some i =>
          rw [target, if_pos rfl, hfound, Option.getD_some] at hstop
          rw [hstop, (firstTombstone_eq_some hfound).1] at hstate
          cases hstate
      refine ⟨hgrow, hstored, d, hd, hstate, ?_, firstTombstone_eq_none.mp hclear⟩
      intro j hj hj'
      rw [honly j hj hj', hstop]
    · rintro ⟨-, -, d', hd', hstate', honly, hclear⟩ ⟨j, hj, hne, hj'⟩
      obtain rfl : d = d' := walk_inj hd hd' (honly _ (walk_lt htable.pos _ _) hstate)
      have hnone : firstTombstone s.slots s.buckets (home cfg s.buckets key) d = none :=
        firstTombstone_eq_none.mpr hclear
      apply hne
      rw [target, if_pos rfl, hnone, Option.getD_none]
      exact honly j hj hj'

/-- A bucket count that can double does so. -/
theorem growBucketCount_ne {current : BitVec w} (hpos : 0 < current.toNat)
    (hdouble : 2 * current.toNat < 2 ^ w) : growBucketCount current ≠ current := by
  have hne : current ≠ 0 := by
    rintro rfl
    simp at hpos
  have htwo : (2 : BitVec w).toNat = 2 := by
    show (BitVec.ofNat w 2).toNat = 2
    rw [BitVec.toNat_ofNat]
    exact Nat.mod_eq_of_lt (by omega)
  have hsmall : ¬ BitVec.allOnes w / 2 < current := by
    rw [BitVec.lt_def, BitVec.toNat_udiv, BitVec.toNat_allOnes, htwo]
    omega
  unfold growBucketCount
  rw [if_neg hne, if_neg hsmall]
  intro h
  have hnat := congrArg BitVec.toNat h
  rw [BitVec.toNat_mul, htwo, Nat.mod_eq_of_lt (by omega)] at hnat
  omega

/-- Growing succeeds, and the put that follows succeeds and leaves an empty slot. -/
theorem openPut_of_grow (hlaw : cfg.hashPolicy.Lawful) (hkey : cfg.keyPolicy.NonFailing)
    (hval : cfg.valuePolicy.NonFailing) (halloc : ∀ n b, cfg.allocRaw n b = .ok)
    (htable : Table cfg s) (hempty : HasEmpty s) (hdouble : 2 * s.buckets < 2 ^ w) (key : K)
    (value : V) :
    ∃ m m', maybeGrow cfg s = (.ok, m) ∧ openPut cfg m key value = (.ok, m') ∧ Table cfg m' ∧
      HasEmpty m' := by
  obtain ⟨st, m, hmaybe, hm, hsize, -, hgrown, hok⟩ := maybeGrow_spec hlaw hkey hval htable
  obtain rfl : st = .ok := hok (growBucketCount_ne htable.pos hdouble) halloc
  obtain ⟨hclean, hbuckets⟩ := hgrown rfl
  have hlt := htable.size_lt hempty
  have hroom : m.size.toNat < m.buckets := by
    rw [hsize, hbuckets]
    omega
  by_cases hstored : Stored cfg m key
  · obtain ⟨i, hi⟩ := hstored
    exact ⟨m, _, hmaybe, openPut_stored hlaw hval hm hi, hm.assigned,
      (hm.hasEmpty hclean hroom).assigned⟩
  · obtain ⟨t, hfree, -, hput⟩ :=
      openPut_absent hkey hval hm hstored (hm.hasEmpty hclean hroom) value
    have hm' : Table cfg (inserted m t key value) := hm.inserted hlaw hstored hfree
    refine ⟨m, _, hmaybe, hput, hm', hm'.hasEmpty hclean.inserted ?_⟩
    have hsucc : (m.size + 1).toNat = m.size.toNat + 1 :=
      WrapCounter.toNat_succ (c := m.bucketCount) hroom
    show (m.size + 1).toNat < m.buckets
    rw [hsucc, hsize, hbuckets]
    omega

/-! ## Calls and runs -/

/-- The invariant of a growable table: in order, with an empty slot. -/
def Roomy (cfg : HashMapConfig w K V) (s : OpenMap w K V) : Prop := Table cfg s ∧ HasEmpty s

/-- A call keeps a free slot exactly if it does not take the last one; then the table stays in
order. -/
theorem Roomy.call (hlaw : cfg.hashPolicy.Lawful) (hkey : cfg.keyPolicy.NonFailing)
    (hval : cfg.valuePolicy.NonFailing) (halloc : ∀ n b, cfg.allocRaw n b = .ok)
    (hroomy : Roomy cfg s) (c : Call K V) (hdouble : CanDouble cfg s c) :
    (KeepsFreeSlot cfg s c ↔ LeavesEmpty cfg s c) ∧ Table cfg (call cfg s c).2 := by
  obtain ⟨htable, hempty⟩ := hroomy
  have hpos : s.bucketCount ≠ 0 := by
    intro h0
    have h := htable.pos
    simp [buckets, h0] at h
  cases c with
  | put key value =>
    cases key with
    | none => exact ⟨iff_of_true ⟨by rintro ⟨⟩, hempty⟩ trivial, htable⟩
    | some key =>
      cases value with
      | none => exact ⟨iff_of_true ⟨by rintro ⟨⟩, hempty⟩ trivial, htable⟩
      | some value =>
        -- a put that grows leaves room: only one that does not grow can take the last empty slot
        by_cases hgrow : shouldGrow cfg.growable s.bucketCount s.size = true
        · obtain ⟨m, m', hmaybe, hput, hm', hroom⟩ :=
            openPut_of_grow hlaw hkey hval halloc htable hempty (hdouble hgrow) key value
          have hcall : OpenMap.call cfg s (.put (some key) (some value)) = (.put .ok, m') := by
            simp only [OpenMap.call, put, hpos, if_false, hgrow, if_true, hmaybe, ne_eq,
              not_true_eq_false, hput]
          refine ⟨iff_of_true ?_ ?_, by rw [hcall]; exact hm'⟩
          · rw [KeepsFreeSlot, hcall]
            exact ⟨by rintro ⟨⟩, hroom⟩
          · rintro ⟨hno, -⟩
            rw [hgrow] at hno
            cases hno
        · have hgrow : shouldGrow cfg.growable s.bucketCount s.size = false := by simpa using hgrow
          obtain ⟨hok, hiff⟩ := hasEmpty_openPut_iff hlaw hkey hval htable hempty hgrow key
            value
          have hright : Answerable cfg s key := .inr hempty
          obtain ⟨st, m, hput, hm, -⟩ := openPut_spec hlaw hkey hval htable (.inl hright) value
          rw [hput] at hok hiff
          have hcall : OpenMap.call cfg s (.put (some key) (some value)) = (.put st, m) := by
            simp only [OpenMap.call, put, hpos, if_false, hgrow, Bool.false_eq_true, hput]
          refine ⟨?_, by rw [hcall]; exact hm⟩
          rw [KeepsFreeSlot, hcall, LeavesEmpty, ← hiff]
          -- the put is answered with ok, so that the slot decides
          obtain rfl : st = .ok := hok
          exact and_iff_right (by rintro ⟨⟩)
  | get key out =>
    obtain ⟨n, hn⟩ := get_map cfg s key out
    have hmap : (OpenMap.call cfg s (.get key out)).2 = { s with copies := n } := hn
    refine ⟨iff_of_true ⟨by rintro ⟨⟩, ?_⟩ trivial, ?_⟩
    · rw [hmap]
      exact hempty
    · rw [hmap]
      exact ⟨htable.pos, htable.reach, htable.distinct, htable.count⟩
  | remove key =>
    cases key with
    | none => exact ⟨iff_of_true ⟨by rintro ⟨⟩, hempty⟩ trivial, htable⟩
    | some key =>
      -- a removal leaves a tombstone, which takes no empty slot
      by_cases hstored : Stored cfg s key
      · obtain ⟨t, ht⟩ := hstored
        have hcall : OpenMap.call cfg s (.remove (some key)) = (.remove .ok, vacated cfg s t) := by
          simp only [OpenMap.call, remove_stored hlaw htable ht]
        rw [KeepsFreeSlot, hcall]
        exact ⟨iff_of_true ⟨by rintro ⟨⟩, hempty.vacated ht.1⟩ trivial, htable.vacated ht.1⟩
      · have hcall : OpenMap.call cfg s (.remove (some key)) = (.remove .notFound, s) := by
          simp only [OpenMap.call, remove_absent htable hstored hempty]
        rw [KeepsFreeSlot, hcall]
        exact ⟨iff_of_true ⟨by rintro ⟨⟩, hempty⟩ trivial, htable⟩
  | contains key => exact ⟨iff_of_true ⟨by rintro ⟨⟩, hempty⟩ trivial, htable⟩
  | clear =>
    obtain ⟨hclear, -, hroom⟩ := clear_spec htable
    exact ⟨iff_of_true ⟨by rintro ⟨⟩, hroom⟩ trivial, hclear⟩

/-- **A growable table keeps a free slot until a put takes the last one.** For every bucket count
that `init_open` accepts, every hash with a compatible key equality, copies that do not fail, an
allocator that always succeeds and no wrap of the bucket count: in a run no put is refused as full
and every operation leaves an empty slot exactly when no put takes the last empty slot. -/
theorem keeps_free_slot_iff (hlaw : cfg.hashPolicy.Lawful) (hkey : cfg.keyPolicy.NonFailing)
    (hval : cfg.valuePolicy.NonFailing) (halloc : ∀ n b, cfg.allocRaw n b = .ok)
    {memory : ℕ → Slot K V} {bucketCount : BitVec w}
    (hinit : initOpen true memory bucketCount cfg.slotStride = .ok s) (calls : List (Call K V))
    (hdouble : Mealy.EveryCall (call cfg) (CanDouble cfg) s calls) :
    Mealy.EveryCall (call cfg) (KeepsFreeSlot cfg) s calls ↔
      Mealy.EveryCall (call cfg) (LeavesEmpty cfg) s calls := by
  obtain ⟨hpos, hsize, hempty⟩ := initOpen_spec hinit
  have hroomy : Roomy cfg s := ⟨table_of_empty hpos hsize hempty, 0, hpos, hempty 0 hpos⟩
  apply Mealy.everyCall_congr (Roomy cfg) ?_ ?_ hroomy hdouble
  · intro s c hroomy hside
    exact (hroomy.call hlaw hkey hval halloc c hside).1
  · intro s c hroomy hside hkeeps
    exact ⟨(hroomy.call hlaw hkey hval halloc c hside).2, hkeeps.2⟩

theorem init_plainMap_two :
    initOpen true (fun _ => ⟨.empty, 0, 0⟩) 2 (plainConfig true).slotStride = .ok (plainMap 2) :=
  rfl

/-- Two buckets, with one key stored throughout and the table grown for the second. -/
theorem keeps_free_slot_two :
    Mealy.EveryCall (call (plainConfig true)) (KeepsFreeSlot (plainConfig true)) (plainMap 2)
      [.put (some 0) (some 5), .put (some 1) (some 6), .remove (some 0)] := by
  apply (keeps_free_slot_iff (HashPolicy.lawful_ofDecEq _) (ElementPolicy.nonFailing_bytewise _)
    (ElementPolicy.nonFailing_bytewise _) (fun _ _ => rfl) init_plainMap_two _ (by decide)).mpr
  decide

/-- Two buckets are turned into tombstones by putting and removing two keys; the table, growable
and empty, then refuses the next key. -/
theorem tombstones_fill_growable_table :
    ¬ Mealy.EveryCall (call (plainConfig true)) (KeepsFreeSlot (plainConfig true)) (plainMap 2)
      [.put (some 0) (some 5), .remove (some 0), .put (some 1) (some 6), .remove (some 1),
        .put (some 2) (some 7)] ∧
    Mealy.EveryCall (call (plainConfig true)) (CanDouble (plainConfig true)) (plainMap 2)
      [.put (some 0) (some 5), .remove (some 0), .put (some 1) (some 6), .remove (some 1),
        .put (some 2) (some 7)] ∧
    Mealy.outputs (call (plainConfig true)) (plainMap 2)
      [.put (some 0) (some 5), .remove (some 0), .put (some 1) (some 6), .remove (some 1),
        .put (some 2) (some 7)] =
      [.put .ok, .remove .ok, .put .ok, .remove .ok, .put .full] := by
  refine ⟨?_, by decide, by decide⟩
  rintro ⟨-, -, -, -, hlast, -⟩
  exact absurd hlast.1 (by decide)

end OpenMap

end Memkit
