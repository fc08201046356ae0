import Memkit.Hashing.OpenAddressingMigration
import Memkit.Hashing.OpenAddressingPut

/-! # A put that gives up

`open_put` copies the key and then the value into a dead slot. When the copy of the value fails it
destroys the key and marks the slot `empty`, whatever the slot was before: if it was a tombstone
that the walk of another key passes, the lookup of that key now ends there. Growth, on the other
hand, is undone by `open_rehash` itself; but a growth that succeeded stays when the put fails after
it, and shows if the table had no empty slot before.

* **`LosesTombstone`** — the tombstone is marked empty and an entry lies behind it.
* **`PutAtomic`** — the states and arguments for which a put that fails has changed nothing.
* **`put_atomic_iff`** — in every run. -/

namespace Memkit

open CopyCall

variable {w : ℕ} {K V : Type*}

namespace OpenMap

/-- No lookup and no size tells the tables apart. -/
structure Unchanged (cfg : HashMapConfig w K V) (s t : OpenMap w K V) : Prop where
  size : t.size = s.size
  lookups : SameLookups cfg s t

/-- The walk of a live entry from its home slot passes slot `i` before it reaches the entry. -/
def Passed (cfg : HashMapConfig w K V) (s : OpenMap w K V) (i : ℕ) : Prop :=
  ∃ j < s.buckets, (s.slots j).state = .occupied ∧
    ∃ d < s.buckets, walk s.buckets (home cfg s.buckets (s.slots j).key) d = j ∧
      ∃ e < d, walk s.buckets (home cfg s.buckets (s.slots j).key) e = i

instance (cfg : HashMapConfig w K V) (s : OpenMap w K V) (i : ℕ) : Decidable (Passed cfg s i) :=
  inferInstanceAs (Decidable (∃ j < s.buckets, (s.slots j).state = .occupied ∧
    ∃ d < s.buckets, walk s.buckets (home cfg s.buckets (s.slots j).key) d = j ∧
      ∃ e < d, walk s.buckets (home cfg s.buckets (s.slots j).key) e = i))

/-- The copy of the key to slot `i` succeeds and the one of the value after it fails. -/
def ValueCopyFails (cfg : HashMapConfig w K V) (s : OpenMap w K V) (i : ℕ) (key : K) (value : V) :
    Prop :=
  (cfg.keyPolicy.copyConstruct s.copies (s.slots i).key key).1 = .ok ∧
    (cfg.valuePolicy.copyConstruct (s.copies + 1) (s.slots i).value value).1 ≠ .ok

instance (cfg : HashMapConfig w K V) (s : OpenMap w K V) (i : ℕ) (key : K) (value : V) :
    Decidable (ValueCopyFails cfg s i key value) :=
  inferInstanceAs (Decidable (_ ∧ _))

/-- The put takes a tombstone that the walk of some entry passes, and marks it empty. -/
def LosesTombstone (cfg : HashMapConfig w K V) (s : OpenMap w K V) (key : K) (value : V) : Prop :=
  HasEmpty s ∧ (s.slots (putSlot cfg s key)).state = .deleted ∧ Passed cfg s (putSlot cfg s key) ∧
    ValueCopyFails cfg s (putSlot cfg s key) key value

instance (cfg : HashMapConfig w K V) (s : OpenMap w K V) (key : K) (value : V) :
    Decidable (LosesTombstone cfg s key value) :=
  inferInstanceAs (Decidable (_ ∧ _))

/-- The states and arguments for which a put that fails has changed nothing. -/
def PutAtomic (cfg : HashMapConfig w K V) (s : OpenMap w K V) (key : K) (value : V) : Prop :=
  if shouldGrow cfg.growable s.bucketCount s.size then
    HasEmpty s ∨ GrowthRefused cfg s ∨ ¬ ConstructsOk (maybeGrowCopies cfg s) ∨
      ConstructsOk (putCopies cfg s (some key) (some value))
  else ¬ LosesTombstone cfg s key value

/-- A call of a run that keeps the table in order: no put loses a tombstone, and the probe is right
about a key that is removed. -/
def Orderly (cfg : HashMapConfig w K V) (s : OpenMap w K V) : Call K V → Prop
  | .put (some key) (some value) =>
    shouldGrow cfg.growable s.bucketCount s.size = true ∨ ¬ LosesTombstone cfg s key value
  | .remove (some key) => Answerable cfg s key
  | _ => True

instance (cfg : HashMapConfig w K V) (s : OpenMap w K V) : ∀ c, Decidable (Orderly cfg s c)
  | .put (some key) (some value) => inferInstanceAs (Decidable (_ ∨ ¬ LosesTombstone cfg s key value))
  | .remove (some key) => inferInstanceAs (Decidable (Answerable cfg s key))
  | .put none _ | .put (some _) none | .get _ _ | .remove none | .contains _ | .clear =>
    isTrue trivial

/-- The table after a put gave up: the dead slot `i` is `slot` now. -/
def abandoned (s : OpenMap w K V) (i : ℕ) (slot : Slot K V) (copies : ℕ) : OpenMap w K V :=
  { s.setSlot i slot with copies }

variable {cfg : HashMapConfig w K V} {s t m : OpenMap w K V} {key : K} {value : V} {i n : ℕ}
  {slot : Slot K V}

/-! ## Lookups in a table in order -/

/-- The lookup of a stored key comes to its value. -/
theorem Table.lookup_of_holds (hlaw : cfg.hashPolicy.Lawful) (htable : Table cfg s)
    (h : Holds cfg s key value) : lookup cfg s key = some value := by
  obtain ⟨i, hi, rfl⟩ := h
  simp only [lookup, htable.probe_stored hlaw hi, if_true]

/-- While some slot is empty, the lookup of an absent key comes to nothing. -/
theorem Table.lookup_of_absent (htable : Table cfg s) (hempty : HasEmpty s)
    (habsent : ¬ Stored cfg s key) : lookup cfg s key = none := by
  obtain ⟨d, -, -, -, hprobe⟩ := htable.probe_absent habsent hempty false
  simp [lookup, hprobe]

/-- Without an empty slot every lookup comes to something. -/
theorem Table.lookup_of_full (hlaw : cfg.hashPolicy.Lawful) (htable : Table cfg s)
    (hfull : ¬ HasEmpty s) (key : K) : (lookup cfg s key).isSome := by
  by_cases hstored : Stored cfg s key
  · obtain ⟨i, hi⟩ := hstored
    rw [htable.lookup_of_holds hlaw ⟨i, hi, rfl⟩]
    rfl
  · simp [lookup, htable.probe_absent_full hstored hfull false]

/-- Tables in order that hold the same entries and have an empty slot are told apart by no
lookup. -/
theorem Table.sameLookups (hlaw : cfg.hashPolicy.Lawful) (hs : Table cfg s) (ht : Table cfg t)
    (hsEmpty : HasEmpty s) (htEmpty : HasEmpty t)
    (hholds : ∀ k v, Holds cfg t k v ↔ Holds cfg s k v) : SameLookups cfg s t := by
  apply sameLookups_of_lookup
  intro key
  by_cases hstored : Stored cfg s key
  · obtain ⟨i, hi⟩ := hstored
    have hold : Holds cfg s key (s.slots i).value := ⟨i, hi, rfl⟩
    rw [hs.lookup_of_holds hlaw hold, ht.lookup_of_holds hlaw ((hholds _ _).mpr hold)]
  · have hnew : ¬ Stored cfg t key := by
      rintro ⟨i, hi⟩
      obtain ⟨j, hj, -⟩ := (hholds key (t.slots i).value).mp ⟨i, hi, rfl⟩
      exact hstored ⟨j, hj⟩
    rw [hs.lookup_of_absent hsEmpty hstored, ht.lookup_of_absent htEmpty hnew]

/-! ## The slot that is given up -/

section Abandoned

variable (hdead : (s.slots i).state ≠ .occupied) (hstill : slot.state ≠ .occupied)

@[simp] theorem buckets_abandoned : (abandoned s i slot n).buckets = s.buckets := rfl

theorem slots_abandoned_self : (abandoned s i slot n).slots i = slot := Function.update_self _ _ _

theorem slots_abandoned_of_ne {j : ℕ} (hj : j ≠ i) :
    (abandoned s i slot n).slots j = s.slots j := Function.update_of_ne hj _ _

include hdead

/-- Another slot is given up than any live one. -/
theorem slots_abandoned_of_live {j : ℕ} (hj : Live s j) :
    (abandoned s i slot n).slots j = s.slots j := by
  apply slots_abandoned_of_ne
  rintro rfl
  exact hdead hj.2

include hstill

/-- The live slots are the same. -/
theorem live_abandoned (j : ℕ) : Live (abandoned s i slot n) j ↔ Live s j := by
  by_cases hj : j = i
  · subst hj
    apply iff_of_false
    · rintro ⟨-, hocc⟩
      rw [slots_abandoned_self] at hocc
      exact hstill hocc
    · exact fun h => hdead h.2
  · rw [Live, slots_abandoned_of_ne hj]
    rfl

theorem storedAt_abandoned (k : K) (j : ℕ) :
    StoredAt cfg (abandoned s i slot n) k j ↔ StoredAt cfg s k j := by
  rw [StoredAt, StoredAt, live_abandoned hdead hstill]
  apply and_congr_right
  intro hj
  rw [slots_abandoned_of_live hdead hj]

theorem holds_abandoned (k : K) (v : V) :
    Holds cfg (abandoned s i slot n) k v ↔ Holds cfg s k v := by
  apply exists_congr
  intro j
  rw [storedAt_abandoned hdead hstill]
  apply and_congr_right
  intro hj
  rw [slots_abandoned_of_live hdead hj.1]

/-- The table stays in order unless a slot that was not empty is now, and an entry lies behind
it. -/
theorem Table.abandoned (htable : Table cfg s)
    (hkeep : slot.state = .empty → (s.slots i).state = .empty ∨ ¬ Passed cfg s i) :
    Table cfg (OpenMap.abandoned s i slot n) := by
  refine ⟨htable.pos, ?_, ?_, ?_⟩
  · intro j hj
    have hlive := (live_abandoned hdead hstill j).mp hj
    rw [slots_abandoned_of_live hdead hlive]
    obtain ⟨d, hd, hwalk, hfull⟩ := htable.reach j hlive
    refine ⟨d, hd, hwalk, fun e he => ?_⟩
    rw [buckets_abandoned]
    by_cases hslot : walk s.buckets (home cfg s.buckets (s.slots j).key) e = i
    · have hfull' := hfull e he
      rw [hslot] at hfull' ⊢
      rw [slots_abandoned_self]
      intro hemptied
      rcases hkeep hemptied with hempty | hnot
      · exact hfull' hempty
      · exact hnot ⟨j, hlive.1, hlive.2, d, hd, hwalk, e, he, hslot⟩
    · rw [slots_abandoned_of_ne hslot]
      exact hfull e he
  · intro j k hj hk hequal
    have hlive := (live_abandoned hdead hstill j).mp hj
    have hlive' := (live_abandoned hdead hstill k).mp hk
    rw [slots_abandoned_of_live hdead hlive, slots_abandoned_of_live hdead hlive']
      at hequal
    exact htable.distinct j k hlive hlive' hequal
  · refine htable.count.trans (congrArg Finset.card (Finset.filter_congr ?_))
    intro j hj
    have hlive := live_abandoned (n := n) hdead hstill j
    simpa [Live, show j < (OpenMap.abandoned s i slot n).buckets from Finset.mem_range.mp hj,
      show j < s.buckets from Finset.mem_range.mp hj] using hlive.symm

omit hdead hstill in
/-- An empty slot stays. -/
theorem HasEmpty.abandoned (hempty : HasEmpty s) (hi : i < s.buckets)
    (hstate : slot.state = (s.slots i).state ∨ slot.state = .empty) :
    HasEmpty (abandoned s i slot n) := by
  obtain ⟨j, hj, hjstate⟩ := hempty
  by_cases hij : j = i
  · subst hij
    refine ⟨j, hj, ?_⟩
    rw [slots_abandoned_self]
    exact hstate.elim (fun h => h.trans hjstate) id
  · exact ⟨j, hj, by rwa [slots_abandoned_of_ne hij]⟩

/-- A lookup of the entry behind the slot that was marked empty ends there. -/
theorem Table.lookup_abandoned (hlaw : cfg.hashPolicy.Lawful) (htable : Table cfg s)
    (hemptied : slot.state = .empty) {j d e : ℕ} (hlive : Live s j) (hd : d < s.buckets)
    (hwalk : walk s.buckets (home cfg s.buckets (s.slots j).key) d = j) (he : e < d)
    (hslot : walk s.buckets (home cfg s.buckets (s.slots j).key) e = i) :
    lookup cfg (OpenMap.abandoned s i slot n) (s.slots j).key = none := by
  have hprobed := openProbe_probed cfg (OpenMap.abandoned s i slot n) htable.pos (s.slots j).key false
  have hat : ¬ Passes cfg.hashPolicy.equal (OpenMap.abandoned s i slot n).slots (s.slots j).key
      (walk s.buckets (home cfg s.buckets (s.slots j).key) e) := by
    rw [hslot, Passes, slots_abandoned_self, hemptied]
    simp
  unfold lookup
  revert hprobed
  generalize openProbe cfg (OpenMap.abandoned s i slot n) (s.slots j).key false = result
  intro hprobed
  cases hprobed with
  | empty d' hd' hpass hstate => rfl
  | hit d' hd' hpass hstate hequal =>
    -- the walk cannot get past the slot, and the entry is the only one with its key
    rcases Nat.lt_or_ge e d' with hlt | hge
    · exact absurd (hpass e hlt) hat
    · have hafter : StoredAt cfg (OpenMap.abandoned s i slot n) (s.slots j).key
          (walk s.buckets (home cfg s.buckets (s.slots j).key) d') :=
        ⟨⟨walk_lt htable.pos _ _, hstate⟩, hequal⟩
      have hstored := (storedAt_abandoned hdead hstill (s.slots j).key _).mp hafter
      have hsame := htable.storedAt_unique hlaw hstored ⟨hlive, hlaw.refl _⟩
      have hround := walk_inj hd' hd (hsame.trans hwalk.symm)
      omega
  | cycled hpass => exact absurd (hpass e (he.trans hd)) hat

end Abandoned

/-! ## `open_put` -/

/-- A put that fails after the probe ended at a dead slot: the key is not copied and the slot keeps
its state, or the value is not copied and the slot is marked empty. -/
theorem openPut_gives_up (hprobe : openProbe cfg s key true = (.empty, i))
    (hdead : (s.slots i).state ≠ .occupied) (hst : (openPut cfg s key value).1 ≠ .ok) :
    ∃ slot n, (openPut cfg s key value).2 = abandoned s i slot n ∧ slot.state ≠ .occupied ∧
      ((slot.state = (s.slots i).state ∧ ¬ ValueCopyFails cfg s i key value) ∨
        (slot.state = .empty ∧ ValueCopyFails cfg s i key value)) := by
  have hne : ¬ (SlotState.empty = SlotState.occupied) := by decide
  by_cases hkey : (cfg.keyPolicy.copyConstruct s.copies (s.slots i).key key).1 = .ok
  · have hsecond : ({ s with copies := s.copies + 1 }.setSlot i
        { s.slots i with
          key := (cfg.keyPolicy.copyConstruct s.copies (s.slots i).key key).2 }).copies =
        s.copies + 1 := rfl
    by_cases hvalue : (cfg.valuePolicy.copyConstruct (s.copies + 1) (s.slots i).value value).1 = .ok
    · refine absurd ?_ hst
      simp only [openPut, hprobe, hne, if_false, hkey, ne_eq, not_true_eq_false, hsecond, hvalue]
    · refine ⟨⟨.empty,
        cfg.keyPolicy.destroy (cfg.keyPolicy.copyConstruct s.copies (s.slots i).key key).2,
        (cfg.valuePolicy.copyConstruct (s.copies + 1) (s.slots i).value value).2⟩, s.copies + 1 + 1,
        ?_, hne, .inr ⟨rfl, hkey, hvalue⟩⟩
      simp only [openPut, hprobe, hne, if_false, hkey, ne_eq, not_true_eq_false, hsecond, hvalue,
        not_false_eq_true, if_true]
      simp [setSlot, OpenMap.abandoned]
  · refine ⟨{ s.slots i with key := (cfg.keyPolicy.copyConstruct s.copies (s.slots i).key key).2 },
      s.copies + 1, ?_, hdead, .inl ⟨rfl, fun h => hkey h.1⟩⟩
    simp only [openPut, hprobe, hne, if_false, hkey, ne_eq, not_false_eq_true, if_true]
    rfl

/-- The slot that a put of an absent key takes while some slot is empty. -/
theorem Table.putSlot_free (htable : Table cfg s) (habsent : ¬ Stored cfg s key)
    (hempty : HasEmpty s) :
    openProbe cfg s key true = (.empty, putSlot cfg s key) ∧ FreeFor cfg s key (putSlot cfg s key) := by
  obtain ⟨d, hd, hpass, hstate, hprobe⟩ := htable.probe_absent habsent hempty true
  have hslot : putSlot cfg s key =
      target s.slots s.buckets (home cfg s.buckets key) true d := by rw [putSlot, hprobe]
  rw [hslot]
  exact ⟨hprobe, freeFor_target htable.pos hd hpass hstate⟩

/-- **A failed put** of an absent key into a table with an empty slot has changed nothing exactly
if it did not lose a tombstone. -/
theorem Table.openPut_failed (hlaw : cfg.hashPolicy.Lawful) (htable : Table cfg s)
    (habsent : ¬ Stored cfg s key) (hempty : HasEmpty s)
    (hst : (openPut cfg s key value).1 ≠ .ok) :
    (LosesTombstone cfg s key value ∧ ¬ Unchanged cfg s (openPut cfg s key value).2) ∨
      (¬ LosesTombstone cfg s key value ∧ Table cfg (openPut cfg s key value).2 ∧
        Unchanged cfg s (openPut cfg s key value).2) := by
  obtain ⟨hprobe, hslot, hdead, -⟩ := htable.putSlot_free habsent hempty
  obtain ⟨slot, n, hput, hstill, hcase⟩ := openPut_gives_up hprobe hdead hst
  rw [hput]
  by_cases hlost : LosesTombstone cfg s key value
  · obtain ⟨-, hdeleted, ⟨j, hj, hocc, d, hd, hwalk, e, he, hpassed⟩, hfails⟩ := id hlost
    have hemptied : slot.state = .empty := by
      rcases hcase with ⟨-, hnot⟩ | ⟨hemptied, -⟩
      · exact absurd hfails hnot
      · exact hemptied
    refine .inl ⟨hlost, fun hsame => ?_⟩
    -- the entry behind the tombstone is not found any more
    have hcontains := hsame.lookups.contains (some (s.slots j).key)
    rw [contains_eq_lookup, contains_eq_lookup,
      htable.lookup_abandoned hdead hstill hlaw hemptied ⟨hj, hocc⟩ hd hwalk he hpassed,
      htable.lookup_of_holds hlaw ⟨j, ⟨⟨hj, hocc⟩, hlaw.refl _⟩, rfl⟩] at hcontains
    exact Bool.false_ne_true hcontains
  · have hkeep : slot.state = .empty →
        (s.slots (putSlot cfg s key)).state = .empty ∨ ¬ Passed cfg s (putSlot cfg s key) := by
      intro hemptied
      cases hstate : (s.slots (putSlot cfg s key)).state with
      | empty => exact .inl rfl
      | occupied => exact absurd hstate hdead
      | deleted =>
        right
        intro hpassed
        rcases hcase with ⟨hsame, -⟩ | ⟨-, hfails⟩
        · rw [hsame, hstate] at hemptied
          cases hemptied
        · exact hlost ⟨hempty, hstate, hpassed, hfails⟩
    have hafter : Table cfg (OpenMap.abandoned s (putSlot cfg s key) slot n) :=
      htable.abandoned hdead hstill hkeep
    have hstays : HasEmpty (OpenMap.abandoned s (putSlot cfg s key) slot n) :=
      hempty.abandoned hslot (hcase.imp And.left And.left)
    exact .inr ⟨hlost, hafter, rfl, htable.sameLookups hlaw hafter hempty hstays
      (holds_abandoned hdead hstill)⟩

/-- **`open_put`** keeps the table in order unless it loses a tombstone. -/
theorem Table.openPut (hlaw : cfg.hashPolicy.Lawful) (hkey : cfg.keyPolicy.Faithful)
    (hvalue : cfg.valuePolicy.Faithful) (htable : Table cfg s)
    (hkeep : ¬ LosesTombstone cfg s key value) : Table cfg (openPut cfg s key value).2 := by
  by_cases hst : (OpenMap.openPut cfg s key value).1 = .ok
  · rcases puts cfg htable.pos key with ⟨d, hd, -, -, hequal, hprobe⟩ | ⟨-, hequal, hprobe⟩ |
      ⟨-, hequal, hprobe⟩ | ⟨d, hd, hpass, hdead, hempty, hprobe⟩
    · rw [(openPut_over hprobe hequal value).1]
      exact htable.assigned
    · rw [(openPut_over hprobe hequal value).1]
      exact htable.assigned
    · rw [(openPut_refuse hprobe hequal value).1]
      exact htable
    · have habsent : ¬ Stored cfg s key := by
        rintro ⟨i, hi⟩
        rw [htable.probe_stored hlaw hi true] at hprobe
        cases hprobe
      obtain ⟨hprobe', hfree⟩ := htable.putSlot_free habsent hempty
      obtain ⟨-, ⟨hput, -⟩ | ⟨hnot, -⟩⟩ := openPut_new hkey hvalue hprobe' value
      · rw [hput]
        exact htable.inserted hlaw habsent hfree
      · exact absurd hst hnot
  · rcases puts cfg htable.pos key with ⟨d, hd, -, -, hequal, hprobe⟩ | ⟨-, hequal, hprobe⟩ |
      ⟨-, hequal, hprobe⟩ | ⟨d, hd, hpass, hdead, hempty, hprobe⟩
    · exact absurd (congrArg Prod.fst (openPut_over hprobe hequal value).1) hst
    · exact absurd (congrArg Prod.fst (openPut_over hprobe hequal value).1) hst
    · rw [(openPut_refuse hprobe hequal value).1]
      exact htable
    · have habsent : ¬ Stored cfg s key := by
        rintro ⟨i, hi⟩
        rw [htable.probe_stored hlaw hi true] at hprobe
        cases hprobe
      rcases htable.openPut_failed hlaw habsent hempty hst with ⟨hlost, -⟩ | ⟨-, hafter, -⟩
      · exact absurd hlost hkeep
      · exact hafter

/-! ## Growth -/

/-- What `maybe_grow` comes to: the whole map moved to twice as many slots, or nothing. -/
theorem maybeGrow_cases (hlaw : cfg.hashPolicy.Lawful) (hkey : cfg.keyPolicy.Faithful)
    (hvalue : cfg.valuePolicy.Faithful) (htable : Table cfg s) :
    AssignsOk (maybeGrowCopies cfg s) ∧
      ((∃ m, maybeGrow cfg s = (.ok, m) ∧ Migrated cfg s (growBucketCount s.bucketCount) m ∧
          HasEmpty m ∧ ¬ GrowthRefused cfg s ∧ ConstructsOk (maybeGrowCopies cfg s)) ∨
        ((maybeGrow cfg s).1 ≠ .ok ∧ Restored s (maybeGrow cfg s).2 ∧
          (GrowthRefused cfg s ∨ ¬ ConstructsOk (maybeGrowCopies cfg s)))) := by
  unfold maybeGrow maybeGrowCopies GrowthRefused
  dsimp only
  by_cases hsame : growBucketCount s.bucketCount = s.bucketCount
  · rw [if_pos hsame, if_pos hsame]
    exact ⟨assignsOk_nil, .inr ⟨nofun, ⟨rfl, rfl, rfl⟩, .inl (.inl hsame)⟩⟩
  · rw [if_neg hsame, if_neg hsame]
    have hdouble := toNat_growBucketCount htable.pos hsame
    have hsize := htable.size_le
    have hpos := htable.pos
    unfold buckets at hsize hpos
    have hroom : s.size.toNat < (growBucketCount s.bucketCount).toNat := by omega
    obtain ⟨hassigns, ⟨m, hrehash, hmigrated, halloc, hconstructs⟩ | ⟨hst, hrestored, hwhy⟩⟩ :=
      openRehash_cases hlaw hkey hvalue htable _ hroom
    · have hempty : HasEmpty m := by
        apply hmigrated.table.hasEmpty hmigrated.clean
        rw [hmigrated.size, buckets, hmigrated.bucketCount]
        exact hroom
      exact ⟨hassigns, .inl ⟨m, hrehash, hmigrated, hempty,
        not_or.mpr ⟨hsame, not_not.mpr halloc⟩, hconstructs⟩⟩
    · exact ⟨hassigns, .inr ⟨hst, hrestored, hwhy.imp .inr id⟩⟩

/-- Old slots that are put back are in order if they were. -/
theorem Restored.table (h : Restored s t) (htable : Table cfg s) : Table cfg t := by
  obtain ⟨slots, bucketCount, size, copies, allocs⟩ := t
  obtain ⟨rfl, rfl, rfl⟩ := h
  exact ⟨htable.pos, htable.reach, htable.distinct, htable.count⟩

/-- A table without tombstones loses none. -/
theorem Clean.not_losesTombstone (hclean : Clean s) (hpos : 0 < s.buckets) :
    ¬ LosesTombstone cfg s key value := by
  rintro ⟨hempty, hdeleted, -⟩
  refine hclean (putSlot cfg s key) ?_ hdeleted
  unfold putSlot
  rcases puts cfg hpos key with ⟨d, -, -, -, -, hprobe⟩ | ⟨hnot, -, -⟩ | ⟨hnot, -, -⟩ |
    ⟨d, -, -, -, -, hprobe⟩
  · rw [hprobe]
    exact walk_lt hpos _ _
  · exact absurd (.inr hempty) hnot
  · exact absurd (.inr hempty) hnot
  · rw [hprobe]
    exact walk_lt hpos _ _

/-- A put into a table that has grown. -/
theorem put_of_grown (htable : Table cfg s)
    (hgrow : shouldGrow cfg.growable s.bucketCount s.size = true)
    (hgrown : maybeGrow cfg s = (.ok, m)) (key : K) (value : V) :
    put cfg s (some key) (some value) = openPut cfg m key value ∧
      putCopies cfg s (some key) (some value) =
        maybeGrowCopies cfg s ++ openPutCopies cfg m key value := by
  constructor
  · simp only [put, if_neg htable.bucketCount_ne, if_pos hgrow, hgrown, ne_eq, not_true_eq_false,
      if_false]
  · simp only [putCopies, if_neg htable.bucketCount_ne, if_pos hgrow, hgrown, ne_eq,
      not_true_eq_false, if_false]

/-- A put into a table that should grow and does not. -/
theorem put_of_not_grown (htable : Table cfg s)
    (hgrow : shouldGrow cfg.growable s.bucketCount s.size = true)
    (hst : (maybeGrow cfg s).1 ≠ .ok) (key : K) (value : V) :
    put cfg s (some key) (some value) = maybeGrow cfg s := by
  simp only [put, if_neg htable.bucketCount_ne, if_pos hgrow, if_pos hst]

/-! ## Runs -/

/-- **One call** keeps the table in order, whatever the copies do. -/
theorem Table.call (hlaw : cfg.hashPolicy.Lawful) (hkey : cfg.keyPolicy.Faithful)
    (hvalue : cfg.valuePolicy.Faithful) (htable : Table cfg s) {c : Call K V}
    (horderly : Orderly cfg s c) : Table cfg (call cfg s c).2 := by
  cases c with
  | put key value =>
    cases key with
    | none => exact htable
    | some key =>
      cases value with
      | none => exact htable
      | some value =>
        show Table cfg (put cfg s (some key) (some value)).2
        by_cases hgrow : shouldGrow cfg.growable s.bucketCount s.size = true
        · obtain ⟨-, ⟨m, hgrown, hmigrated, -⟩ | ⟨hst, hrestored, -⟩⟩ :=
            maybeGrow_cases hlaw hkey hvalue htable
          · rw [(put_of_grown htable hgrow hgrown key value).1]
            exact hmigrated.table.openPut hlaw hkey hvalue
              (hmigrated.clean.not_losesTombstone hmigrated.table.pos)
          · rw [put_of_not_grown htable hgrow hst]
            exact hrestored.table htable
        · rw [put_of_stays key value htable hgrow]
          exact htable.openPut hlaw hkey hvalue (horderly.resolve_left hgrow)
  | get key out =>
    obtain ⟨n, hn⟩ := get_map cfg s key out
    show Table cfg (get cfg s key out).2
    rw [hn]
    exact ⟨htable.pos, htable.reach, htable.distinct, htable.count⟩
  | remove key =>
    cases key with
    | none => exact htable
    | some key =>
      obtain ⟨st, m, hremove, hm, -⟩ := remove_spec hlaw htable horderly
      show Table cfg (remove cfg s (some key)).2
      rw [hremove]
      exact hm
  | contains key => exact htable
  | clear => exact (clear_spec htable).1

/-- A freshly initialised table is in order. -/
theorem table_initOpen {memory : ℕ → Slot K V} {bucketCount : BitVec w}
    (hinit : initOpen true memory bucketCount cfg.slotStride = .ok s) : Table cfg s := by
  obtain ⟨hpos, hsize, hempty⟩ := initOpen_spec hinit
  exact table_of_empty hpos hsize hempty

/-- A put of an absent key into a table in order, if it fails, has changed nothing exactly under
the condition. -/
theorem Table.put_atomic (hlaw : cfg.hashPolicy.Lawful) (hkey : cfg.keyPolicy.Faithful)
    (hvalue : cfg.valuePolicy.Faithful) (htable : Table cfg s) (habsent : ¬ Stored cfg s key)
    (value : V) :
    ((put cfg s (some key) (some value)).1 ≠ .ok →
        Unchanged cfg s (put cfg s (some key) (some value)).2) ↔ PutAtomic cfg s key value := by
  unfold PutAtomic
  by_cases hgrow : shouldGrow cfg.growable s.bucketCount s.size = true
  · -- the put grows the table first: into a migrated one, or not at all
    rw [if_pos hgrow]
    obtain ⟨-, ⟨m, hgrown, hmigrated, hmEmpty, hgranted, hmoved⟩ | ⟨hst, hrestored, hwhy⟩⟩ :=
      maybeGrow_cases hlaw hkey hvalue htable
    · obtain ⟨hput, hcopies⟩ := put_of_grown htable hgrow hgrown key value
      rw [hput, hcopies, constructsOk_append]
      -- the migrated table holds the same entries, and has an empty slot to end a search in
      have hmAbsent : ¬ Stored cfg m key := by
        rintro ⟨i, hi⟩
        obtain ⟨j, hj, -⟩ := (hmigrated.holds key (m.slots i).value).mp ⟨i, hi, rfl⟩
        exact habsent ⟨j, hj⟩
      obtain ⟨hprobe, -⟩ := hmigrated.table.putSlot_free hmAbsent hmEmpty
      obtain ⟨-, ⟨hdone, hconstructs⟩ | ⟨hst, hconstructs⟩⟩ := openPut_new hkey hvalue hprobe value
      · exact iff_of_true (fun hnot => absurd (congrArg Prod.fst hdone) hnot)
          (.inr (.inr (.inr ⟨hmoved, hconstructs⟩)))
      · -- the table has grown and holds the same entries
        rcases hmigrated.table.openPut_failed hlaw hmAbsent hmEmpty hst with ⟨hlost, -⟩ |
          ⟨-, hafter, hsame⟩
        · exact absurd hlost (hmigrated.clean.not_losesTombstone hmigrated.table.pos)
        -- without an empty slot the searches before could answer for a tombstone, those after
        -- cannot
        by_cases hempty : HasEmpty s
        · refine iff_of_true (fun _ => ⟨hsame.size.trans hmigrated.size, ?_⟩) (.inl hempty)
          have hmoves := htable.sameLookups hlaw hmigrated.table hempty hmEmpty hmigrated.holds
          exact ⟨fun k => (hsame.lookups.contains k).trans (hmoves.contains k),
            fun n k out => (hsame.lookups.get n k out).trans (hmoves.get n k out)⟩
        · apply iff_of_false
          · intro h
            have hcontains := (h hst).lookups.contains (some key)
            rw [hsame.lookups.contains (some key), contains_eq_lookup, contains_eq_lookup,
              hmigrated.table.lookup_of_absent hmEmpty hmAbsent,
              htable.lookup_of_full hlaw hempty key] at hcontains
            exact Bool.false_ne_true hcontains
          · rintro (h | h | h | h)
            · exact hempty h
            · exact hgranted h
            · exact h hmoved
            · exact hconstructs h.2
    · -- the growth failed, and put the old table back
      rw [put_of_not_grown htable hgrow hst]
      exact iff_of_true (fun _ => ⟨hrestored.size, hrestored.sameLookups⟩)
        (.inr (hwhy.imp id .inl))
  · -- the put goes into the table as it stands
    rw [if_neg hgrow, put_of_stays key value htable hgrow]
    by_cases hempty : HasEmpty s
    · by_cases hst : (OpenMap.openPut cfg s key value).1 = .ok
      · refine iff_of_true (fun hnot => absurd hst hnot) ?_
        -- a put that is answered with ok has copied both the key and the value
        rintro ⟨-, -, -, hkeyOk, hvalueFails⟩
        obtain ⟨hprobe, -⟩ := htable.putSlot_free habsent hempty
        have hne : ¬ (SlotState.empty = SlotState.occupied) := by decide
        have hsecond : ({ s with copies := s.copies + 1 }.setSlot (putSlot cfg s key)
            { s.slots (putSlot cfg s key) with
              key := (cfg.keyPolicy.copyConstruct s.copies
                (s.slots (putSlot cfg s key)).key key).2 }).copies = s.copies + 1 := rfl
        simp only [OpenMap.openPut, hprobe, hne, if_false, hkeyOk, ne_eq, not_true_eq_false, hsecond,
          hvalueFails, not_false_eq_true, if_true] at hst
      · rcases htable.openPut_failed hlaw habsent hempty hst with ⟨hlost, hchanged⟩ |
          ⟨hkept, -, hsame⟩
        · exact iff_of_false (fun h => hchanged (h hst)) (not_not.mpr hlost)
        · exact iff_of_true (fun _ => hsame) hkept
    · -- a full table: no slot to write into, whatever the search ends on
      refine iff_of_true (fun hst => ?_) (fun hlost => hempty hlost.1)
      rcases puts cfg htable.pos key with ⟨d, hd, -, hstate, hequal, hprobe⟩ | ⟨-, hequal, hprobe⟩ |
        ⟨-, hequal, hprobe⟩ | ⟨d, -, -, -, hfree, -⟩
      · exact absurd ⟨_, ⟨walk_lt htable.pos _ _, hstate⟩, hequal⟩ habsent
      · exact absurd (congrArg Prod.fst (openPut_over hprobe hequal value).1) hst
      · rw [(openPut_refuse hprobe hequal value).1]
        exact ⟨rfl, fun _ => rfl, fun _ _ _ => rfl⟩
      · exact absurd hfree hempty

/-- **When a failed put of an absent key has changed nothing.** After any calls of which none loses
a tombstone, whatever the copies and the allocator answer: exactly if the put itself does not lose
one, and a growth that comes before it starts from a table with an empty slot. -/
theorem put_atomic_iff (cfg : HashMapConfig w K V) (hlaw : cfg.hashPolicy.Lawful)
    (hkey : cfg.keyPolicy.Faithful) (hvalue : cfg.valuePolicy.Faithful) {memory : ℕ → Slot K V}
    {bucketCount : BitVec w} {s₀ : OpenMap w K V}
    (hinit : initOpen true memory bucketCount cfg.slotStride = .ok s₀) {calls : List (Call K V)}
    (hgood : Mealy.EveryCall (call cfg) (Orderly cfg) s₀ calls) {s : OpenMap w K V}
    (hrun : Mealy.final (call cfg) s₀ calls = s) (key : K) (value : V)
    (habsent : ¬ Stored cfg s key) :
    ((put cfg s (some key) (some value)).1 ≠ .ok →
        Unchanged cfg s (put cfg s (some key) (some value)).2) ↔ PutAtomic cfg s key value := by
  subst hrun
  have htable := hgood.final_invariant (Table cfg)
    (fun s c htable hc => htable.call hlaw hkey hvalue hc) (table_initOpen hinit)
  exact htable.put_atomic hlaw hkey hvalue habsent value

theorem init_plainMap_four (n : ℕ) :
    initOpen true (fun _ => ⟨.empty, 0, 0⟩) 4 (failingConfig n).slotStride = .ok (plainMap 4) := rfl

/-- The value of the third key cannot be copied; its slot was not used before. -/
theorem put_atomic_three :
    (put (failingConfig 5)
        (Mealy.final (call (failingConfig 5)) (plainMap 4)
          [.put (some 0) (some 10), .put (some 4) (some 14), .remove (some 0)])
        (some 3) (some 13)).1 = .oom ∧
      Unchanged (failingConfig 5)
        (Mealy.final (call (failingConfig 5)) (plainMap 4)
          [.put (some 0) (some 10), .put (some 4) (some 14), .remove (some 0)])
        (put (failingConfig 5)
          (Mealy.final (call (failingConfig 5)) (plainMap 4)
            [.put (some 0) (some 10), .put (some 4) (some 14), .remove (some 0)])
          (some 3) (some 13)).2 := by
  have hfails : (put (failingConfig 5)
      (Mealy.final (call (failingConfig 5)) (plainMap 4)
        [.put (some 0) (some 10), .put (some 4) (some 14), .remove (some 0)])
      (some 3) (some 13)).1 = .oom := by decide
  refine ⟨hfails, (put_atomic_iff (failingConfig 5) (HashPolicy.lawful_ofDecEq _)
    (ElementPolicy.nonFailing_bytewise ℕ).faithful (faithful_failingConfig 5) (init_plainMap_four 5)
    (by decide) rfl 3 13 (by decide)).mpr ?_ ?_⟩
  · show ¬ LosesTombstone _ _ _ _
    decide
  · rw [hfails]
    decide

/-- A key whose value cannot be copied takes the slot of a removed key: a third key, which was
stored past that slot, is not found any more. -/
theorem failed_put_loses_key :
    (put (failingConfig 5)
        (Mealy.final (call (failingConfig 5)) (plainMap 4)
          [.put (some 0) (some 10), .put (some 4) (some 14), .remove (some 0)])
        (some 8) (some 18)).1 = .oom ∧
      Mealy.outputs (call (failingConfig 5)) (plainMap 4)
        [.put (some 0) (some 10), .put (some 4) (some 14), .remove (some 0), .contains (some 8),
          .contains (some 4), .put (some 8) (some 18), .contains (some 4)] =
      [.put .ok, .put .ok, .remove .ok, .contains false, .contains true, .put .oom,
        .contains false] ∧
      ¬ ∀ k', contains (failingConfig 5)
          (put (failingConfig 5)
            (Mealy.final (call (failingConfig 5)) (plainMap 4)
              [.put (some 0) (some 10), .put (some 4) (some 14), .remove (some 0)])
            (some 8) (some 18)).2 k' =
        contains (failingConfig 5)
          (Mealy.final (call (failingConfig 5)) (plainMap 4)
            [.put (some 0) (some 10), .put (some 4) (some 14), .remove (some 0)]) k' := by
  refine ⟨by decide, by decide, fun hsame => ?_⟩
  exact absurd (hsame (some 4)) (by decide)

end OpenMap

end Memkit
