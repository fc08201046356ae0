import Memkit.Hashing.OpenAddressingMap

/-! # What a put changes

A `put` that returns ok owes more than its own entry: the lookups of the other keys must not
change, and the size counts the entry once. It breaks this in two ways, both by the fall-through of
the probe: it takes the last empty slot, after which absent keys are found, or there is no empty
slot and it meets a tombstone, which it takes for the entry of its key if the bytes are equal and
for an entry of another key if not.

* **`PutRight`** — what a put owes.
* **`PutSafe`** — the states and arguments for which it does it.
* **`puts_right`** — in every run. -/

namespace Memkit

namespace OpenMap

open Mealy

variable {w : ℕ} {K V : Type*} {cfg : HashMapConfig w K V} {key : K} {value : V}

/-- A key is looked up in two tables with the same answers. -/
def SameLookup (cfg : HashMapConfig w K V) (s t : OpenMap w K V) (key : K) : Prop :=
  contains cfg t (some key) = contains cfg s (some key) ∧
    ∀ out, (get cfg t (some key) (some out)).1 = (get cfg s (some key) (some out)).1

/-- What a put of a key that was present or not owes when it returns `st` and leaves `t`. -/
structure PutRight (cfg : HashMapConfig w K V) (s : OpenMap w K V) (key : K) (value : V)
    (present : Bool) (st : Status) (t : OpenMap w K V) : Prop where
  contains : st = .ok → contains cfg t (some key) = true
  get : st = .ok → ∀ out, (get cfg t (some key) (some out)).1 = (.ok, some value)
  others : st = .ok → ∀ other, cfg.hashPolicy.equal key other = false → SameLookup cfg s t other
  size : st = .ok → t.size.toNat = s.size.toNat + if present then 0 else 1
  /-- A table that cannot grow is full of live entries. -/
  full : cfg.growable = false → present = false → st = .full →
    ∀ i < s.buckets, (s.slots i).state = .occupied

/-! ## The condition -/

/-- The slot that `open_put` takes: where `open_probe` ends. -/
def putSlot (cfg : HashMapConfig w K V) (s : OpenMap w K V) (key : K) : ℕ :=
  (openProbe cfg s key true).2

/-- A slot is empty besides the one that the put takes. -/
def Spare (cfg : HashMapConfig w K V) (s : OpenMap w K V) (key : K) : Prop :=
  ∃ i < s.buckets, i ≠ putSlot cfg s key ∧ (s.slots i).state = .empty

instance (cfg : HashMapConfig w K V) (s : OpenMap w K V) (key : K) : Decidable (Spare cfg s key) :=
  inferInstanceAs (Decidable (∃ i < s.buckets, i ≠ putSlot cfg s key ∧ (s.slots i).state = .empty))

/-- Every key but this one is stored. -/
def OthersStored (cfg : HashMapConfig w K V) (s : OpenMap w K V) (key : K) : Prop :=
  ∀ other, cfg.hashPolicy.equal key other = false → Stored cfg s other

/-- The key is stored, and no absent key that has its home in that slot is answered by a new
value. -/
def Unseen (cfg : HashMapConfig w K V) (s : OpenMap w K V) (key : K) (value : V) : Prop :=
  ∃ t, StoredAt cfg s key t ∧
    ∀ other, ¬ Stored cfg s other → home cfg s.buckets other = t → (s.slots t).value = value

/-- `maybe_grow` does not get its memory. -/
def GrowthRefused (cfg : HashMapConfig w K V) (s : OpenMap w K V) : Prop :=
  growBucketCount s.bucketCount = s.bucketCount ∨
    cfg.allocRaw s.allocs (growBucketCount s.bucketCount * cfg.slotStride) ≠ .ok

/-- The states and arguments for which a put does what it owes. -/
def PutSafe (cfg : HashMapConfig w K V) (s : OpenMap w K V) (key : K) (value : V) : Prop :=
  if shouldGrow cfg.growable s.bucketCount s.size then
    GrowthRefused cfg s ∨ HasEmpty s ∨ OthersStored cfg s key
  else if Answerable cfg s key then
    Spare cfg s key ∨ OthersStored cfg s key ∨ Unseen cfg s key value
  else
    cfg.hashPolicy.equal (s.slots (fallThrough cfg s key)).key key = false ∧
      (cfg.growable = true ∨ ∀ i < s.buckets, (s.slots i).state = .occupied)

/-- A put that is safe is not misled. -/
theorem PutSafe.placeable {s : OpenMap w K V} (h : PutSafe cfg s key value) :
    Placeable cfg s key := by
  unfold PutSafe at h
  by_cases hgrow : shouldGrow cfg.growable s.bucketCount s.size = true
  · exact .inl hgrow
  · rw [if_neg hgrow] at h
    by_cases hanswer : Answerable cfg s key
    · exact .inr (.inl hanswer)
    · rw [if_neg hanswer] at h
      exact .inr (.inr h.1)

/-! ## One put -/

section Table

variable {s : OpenMap w K V}

theorem Table.size_le (htable : Table cfg s) : s.size.toNat ≤ s.buckets := by
  rw [htable.count]
  exact (Finset.card_filter_le _ _).trans_eq (Finset.card_range _)

theorem Table.bucketCount_ne (htable : Table cfg s) : s.bucketCount ≠ 0 := by
  intro hzero
  have hpos := htable.pos
  rw [buckets, hzero, show (0 : BitVec w).toNat = 0 from BitVec.toNat_zero] at hpos
  exact Nat.lt_irrefl 0 hpos

/-- A put into a table that does not grow first. -/
theorem put_of_stays (key : K) (value : V) (htable : Table cfg s)
    (hgrow : ¬ shouldGrow cfg.growable s.bucketCount s.size = true) :
    put cfg s (some key) (some value) = openPut cfg s key value := by
  simp only [put, if_neg htable.bucketCount_ne, if_neg hgrow]

/-- A put into a table that cannot grow although it should. -/
theorem put_of_refused (key : K) (value : V) (htable : Table cfg s)
    (hgrow : shouldGrow cfg.growable s.bucketCount s.size = true) (hrefused : GrowthRefused cfg s) :
    (put cfg s (some key) (some value)).1 ≠ .ok := by
  have hst : (maybeGrow cfg s).1 ≠ .ok := by
    unfold maybeGrow
    by_cases hsame : growBucketCount s.bucketCount = s.bucketCount
    · simp only [if_pos hsame]
      nofun
    · have halloc := hrefused.resolve_left hsame
      simp only [if_neg hsame, openRehash, if_pos halloc]
      exact halloc
  simp only [put, if_neg htable.bucketCount_ne, if_pos hgrow, if_pos hst]
  exact hst

/-- A put into a table that grows first. -/
theorem put_of_grows (key : K) (value : V) (hlaw : cfg.hashPolicy.Lawful)
    (hkey : cfg.keyPolicy.NonFailing)
    (hval : cfg.valuePolicy.NonFailing) (htable : Table cfg s)
    (hgrow : shouldGrow cfg.growable s.bucketCount s.size = true)
    (hgranted : ¬ GrowthRefused cfg s) :
    ∃ m, put cfg s (some key) (some value) = openPut cfg m key value ∧ Table cfg m ∧ Clean m ∧
      m.size = s.size ∧ m.buckets = 2 * s.buckets ∧ HasEmpty m ∧
      ∀ k v, Holds cfg m k v ↔ Holds cfg s k v := by
  obtain ⟨hgrows, halloc⟩ := not_or.mp hgranted
  have hdouble := toNat_growBucketCount htable.pos hgrows
  have hsize := htable.size_le
  have hpos := htable.pos
  unfold buckets at hsize hpos
  obtain ⟨m, hrehash, hm, hcount, hmsize, hclean, hholds⟩ :=
    openRehash_spec hlaw hkey hval htable (growBucketCount s.bucketCount) (by omega)
      (not_not.mp halloc)
  have hbuckets : m.buckets = 2 * s.buckets := by
    rw [buckets, hcount, hdouble, buckets]
  refine ⟨m, ?_, hm, hclean, hmsize, hbuckets, hm.hasEmpty hclean ?_, hholds⟩
  · simp only [put, if_neg htable.bucketCount_ne, if_pos hgrow, maybeGrow, if_neg hgrows, hrehash,
      ne_eq, not_true_eq_false, if_false]
  · rw [hmsize, hbuckets, buckets]
    omega

/-- **`open_put`** where the probe is right: it changes the slot where the probe ends, and no
other. -/
theorem openPut_answerable (hlaw : cfg.hashPolicy.Lawful) (hkey : cfg.keyPolicy.NonFailing)
    (hval : cfg.valuePolicy.NonFailing) (htable : Table cfg s) (hanswer : Answerable cfg s key)
    (value : V) :
    ∃ t, openPut cfg s key value = (.ok, t) ∧ t.buckets = s.buckets ∧
      (∀ i, i ≠ putSlot cfg s key → t.slots i = s.slots i) ∧
      (t.slots (putSlot cfg s key)).state = .occupied ∧
      (t.slots (putSlot cfg s key)).value = value ∧
      t.size.toNat = s.size.toNat + if Stored cfg s key then 0 else 1 := by
  by_cases hstored : Stored cfg s key
  · obtain ⟨i, hi⟩ := hstored
    have hslot : putSlot cfg s key = i := by
      rw [putSlot, htable.probe_stored hlaw hi]
    refine ⟨_, openPut_stored hlaw hval htable hi, rfl, ?_, ?_, ?_, ?_⟩
    · rw [hslot]
      exact fun j hj => slots_assigned_of_ne hj
    · rw [hslot, slots_assigned_self]
      exact hi.1.2
    · rw [hslot, slots_assigned_self]
    · rw [if_pos ⟨i, hi⟩]
      rfl
  · have hempty := hanswer.resolve_left hstored
    obtain ⟨t, -, hprobe, hput⟩ := openPut_absent hkey hval htable hstored hempty value
    have hslot : putSlot cfg s key = t := by
      rw [putSlot, hprobe]
    refine ⟨_, hput, rfl, ?_, ?_, ?_, ?_⟩
    · rw [hslot]
      exact fun j hj => slots_inserted_of_ne hj
    · rw [hslot, slots_inserted_self]
    · rw [hslot, slots_inserted_self]
    · rw [if_neg hstored]
      have hlt := htable.size_lt hempty
      exact WrapCounter.toNat_succ hlt

/-- A lookup of an absent key in a table without an empty slot: the home slot is taken for its
entry. -/
theorem Table.lookup_cycled (hval : cfg.valuePolicy.NonFailing) (htable : Table cfg s)
    (habsent : ¬ Stored cfg s key) (hfull : ¬ HasEmpty s) :
    contains cfg s (some key) = true ∧
      ∀ out, (get cfg s (some key) (some out)).1 =
        (.ok, some (s.slots (home cfg s.buckets key)).value) := by
  have hhome : home cfg s.buckets key < s.buckets := Nat.mod_lt _ htable.pos
  have hprobe : openProbe cfg s key false = (.occupied, home cfg s.buckets key) := by
    rw [htable.probe_absent_full habsent hfull false, target, if_neg Bool.false_ne_true, walk,
      Nat.add_mod_right, Nat.mod_eq_of_lt hhome]
  refine ⟨?_, fun out => ?_⟩
  · simp only [OpenMap.contains, openContains, hprobe, decide_true]
  · simp only [OpenMap.get, openGet, hprobe, hval.copyAssign, ne_eq, not_true_eq_false, if_false]

/-- `open_put` into a table that has just grown leaves an empty slot. -/
theorem openPut_grown (hlaw : cfg.hashPolicy.Lawful) (hkey : cfg.keyPolicy.NonFailing)
    (hval : cfg.valuePolicy.NonFailing) (htable : Table cfg s) (hclean : Clean s)
    (hempty : HasEmpty s) (hroom : s.size.toNat + 1 < s.buckets) {t : OpenMap w K V}
    (hput : openPut cfg s key value = (.ok, t)) : HasEmpty t := by
  obtain ⟨t', hput', hbuckets, hothers, hslot, -, hsize⟩ :=
    openPut_answerable hlaw hkey hval htable (.inr hempty) value
  obtain ⟨st, t'', hput'', htable', -⟩ :=
    openPut_spec hlaw hkey hval htable (.inl (.inr hempty)) value
  obtain rfl : t' = t := (Prod.mk.inj (hput'.symm.trans hput)).2
  obtain rfl : t'' = t' := (Prod.mk.inj (hput''.symm.trans hput')).2
  apply htable'.hasEmpty
  · intro i hi
    by_cases heq : i = putSlot cfg s key
    · rw [heq, hslot]
      decide
    · rw [hothers i heq]
      exact hclean i (hbuckets ▸ hi)
  · rw [hsize, hbuckets]
    split <;> omega

end Table

/-! ## One put of a session -/

/-- A put of a session is right. -/
def RightPut (cfg : HashMapConfig w K V) (s : Session w K V) (key : K) (value : V) : Prop :=
  PutRight cfg s.map key value (s.reference key).isSome (put cfg s.map (some key) (some value)).1
    (put cfg s.map (some key) (some value)).2

namespace InStep

variable {s t : Session w K V} {m : OpenMap w K V}

/-- A key with the same entry before and after, that the probe is right about in both states. -/
theorem sameLookup (hlaw : cfg.hashPolicy.Lawful) (hval : cfg.valuePolicy.NonFailing)
    (hs : InStep cfg s) (ht : InStep cfg t) (href : t.reference key = s.reference key)
    (hbefore : Answerable cfg s.map key) (hafter : Answerable cfg t.map key) :
    SameLookup cfg s.map t.map key := by
  have hold := (hs.lookupRight_iff hlaw hval key).mpr hbefore
  have hnew := (ht.lookupRight_iff hlaw hval key).mpr hafter
  rw [href] at hnew
  exact ⟨hnew.contains.trans hold.contains.symm, fun out => (hnew.get out).trans (hold.get out).symm⟩

/-- A session after a put that returns ok. -/
theorem put (hlaw : cfg.hashPolicy.Lawful) (hkey : cfg.keyPolicy.NonFailing)
    (hval : cfg.valuePolicy.NonFailing) (hstep : InStep cfg s) (hplace : Placeable cfg s.map key)
    (hput : OpenMap.put cfg s.map (some key) (some value) = (.ok, m)) :
    ∃ t : Session w K V, t.map = m ∧ InStep cfg t ∧ t.reference key = some value ∧
      ∀ other, cfg.hashPolicy.equal key other = false → t.reference other = s.reference other := by
  have hnext := hstep.keep_call hlaw hkey hval (c := .put (some key) (some value)) hplace
  simp only [Session.call, OpenMap.call, hput] at hnext
  refine ⟨_, rfl, hnext, ?_, fun other hother => ?_⟩
  · exact if_pos (hlaw.refl key)
  · exact if_neg (Bool.eq_false_iff.mp hother)

/-- **A put that returns ok is right** if the absent keys are looked up as before. -/
theorem putRight (hlaw : cfg.hashPolicy.Lawful) (hkey : cfg.keyPolicy.NonFailing)
    (hval : cfg.valuePolicy.NonFailing) (hstep : InStep cfg s) (hplace : Placeable cfg s.map key)
    (hput : OpenMap.put cfg s.map (some key) (some value) = (.ok, m))
    (hsize : m.size.toNat = s.map.size.toNat + if Stored cfg s.map key then 0 else 1)
    (habsent : ∀ other, cfg.hashPolicy.equal key other = false → ¬ Stored cfg s.map other →
      SameLookup cfg s.map m other) :
    PutRight cfg s.map key value (s.reference key).isSome .ok m := by
  obtain ⟨t, rfl, hnext, hself, hothers⟩ := hstep.put hlaw hkey hval hplace hput
  have hstored : Stored cfg t.map key := hnext.stored_iff.mpr (by rw [hself]; rfl)
  have hlookup := (hnext.lookupRight_iff hlaw hval key).mpr (.inl hstored)
  rw [hself] at hlookup
  refine ⟨fun _ => hlookup.contains, fun _ out => hlookup.get out, fun _ other hother => ?_,
    fun _ => ?_, fun _ _ h => nomatch h⟩
  · by_cases hold : Stored cfg s.map other
    · have hnew : Stored cfg t.map other := by
        rw [hnext.stored_iff, hothers other hother]
        exact hstep.stored_iff.mp hold
      exact hstep.sameLookup hlaw hval hnext (hothers other hother) (.inl hold) (.inl hnew)
    · exact habsent other hother hold
  · rw [hsize]
    by_cases hold : Stored cfg s.map key
    · rw [if_pos hold, if_pos (hstep.stored_iff.mp hold)]
    · rw [if_neg hold, if_neg (fun h => hold (hstep.stored_iff.mpr h))]

/-- An absent key, with an empty slot before and after. -/
theorem sameLookup_absent (hlaw : cfg.hashPolicy.Lawful) (hkey : cfg.keyPolicy.NonFailing)
    (hval : cfg.valuePolicy.NonFailing) (hstep : InStep cfg s) (hplace : Placeable cfg s.map key)
    (hput : OpenMap.put cfg s.map (some key) (some value) = (.ok, m)) (hbefore : HasEmpty s.map)
    (hafter : HasEmpty m) {other : K} (hother : cfg.hashPolicy.equal key other = false) :
    SameLookup cfg s.map m other := by
  obtain ⟨t, rfl, hnext, -, hothers⟩ := hstep.put hlaw hkey hval hplace hput
  exact hstep.sameLookup hlaw hval hnext (hothers other hother) (.inr hbefore) (.inr hafter)

/-- **Safe puts are right.** -/
theorem putRight_of_safe (hlaw : cfg.hashPolicy.Lawful) (hkey : cfg.keyPolicy.NonFailing)
    (hval : cfg.valuePolicy.NonFailing) (hstep : InStep cfg s)
    (hsafe : PutSafe cfg s.map key value) : RightPut cfg s key value := by
  unfold RightPut
  have hplace := hsafe.placeable
  have htable := hstep.table
  unfold PutSafe at hsafe
  by_cases hgrow : shouldGrow cfg.growable s.map.bucketCount s.map.size = true
  · rw [if_pos hgrow] at hsafe
    by_cases hrefused : GrowthRefused cfg s.map
    · have hst := put_of_refused key value htable hgrow hrefused
      have hgrowable : cfg.growable = true := (Bool.and_eq_true_iff.mp hgrow).1
      refine ⟨fun h => absurd h hst, fun h => absurd h hst, fun h => absurd h hst,
        fun h => absurd h hst, fun h => ?_⟩
      rw [hgrowable] at h
      cases h
    · obtain ⟨m, hput, hm, hclean, hmsize, hmbuckets, hmempty, hholds⟩ :=
        put_of_grows key value hlaw hkey hval htable hgrow hrefused
      obtain ⟨t, hok, -, -, -, -, hsize⟩ :=
        openPut_answerable hlaw hkey hval hm (.inr hmempty) value
      have hstored : Stored cfg m key ↔ Stored cfg s.map key := by
        constructor
        · rintro ⟨i, hi⟩
          obtain ⟨j, hj, -⟩ := (hholds key _).mp ⟨i, hi, rfl⟩
          exact ⟨j, hj⟩
        · rintro ⟨i, hi⟩
          obtain ⟨j, hj, -⟩ := (hholds key _).mpr ⟨i, hi, rfl⟩
          exact ⟨j, hj⟩
      have hput := hput.trans hok
      rw [hput]
      refine hstep.putRight hlaw hkey hval hplace hput ?_ fun other hother habsent => ?_
      · rw [hsize, hmsize]
        simp only [hstored]
      · rcases hsafe.resolve_left hrefused with hempty | hstored
        · have hlt := htable.size_lt hempty
          have hafter := openPut_grown hlaw hkey hval hm hclean hmempty
            (by rw [hmsize, hmbuckets]; omega) hok
          exact hstep.sameLookup_absent hlaw hkey hval hplace hput hempty hafter hother
        · exact absurd (hstored other hother) habsent
  · rw [if_neg hgrow] at hsafe
    have hstays := put_of_stays key value htable hgrow
    by_cases hanswer : Answerable cfg s.map key
    · rw [if_pos hanswer] at hsafe
      obtain ⟨t, hok, hbuckets, hslots, hslot, hvalue, hsize⟩ :=
        openPut_answerable hlaw hkey hval htable hanswer value
      have hput := hstays.trans hok
      rw [hput]
      refine hstep.putRight hlaw hkey hval hplace hput hsize fun other hother habsent => ?_
      rcases hsafe with ⟨i, hi, hne, hstate⟩ | hstored | ⟨i, hi, hunseen⟩
      · -- the spare slot stays empty
        exact hstep.sameLookup_absent hlaw hkey hval hplace hput ⟨i, hi, hstate⟩
          ⟨i, hbuckets ▸ hi, by rw [hslots i hne, hstate]⟩ hother
      · exact absurd (hstored other hother) habsent
      · have hi' : putSlot cfg s.map key = i := by
          rw [putSlot, htable.probe_stored hlaw hi]
        rw [hi'] at hslots hslot hvalue
        -- the put changes no state
        have hstate : ∀ j, (t.slots j).state = (s.map.slots j).state := by
          intro j
          by_cases hj : j = i
          · rw [hj, hslot, hi.1.2]
          · rw [hslots j hj]
        have hempty : HasEmpty t ↔ HasEmpty s.map := by
          unfold HasEmpty
          simp only [hstate, hbuckets]
        by_cases hbefore : HasEmpty s.map
        · exact hstep.sameLookup_absent hlaw hkey hval hplace hput hbefore (hempty.mpr hbefore)
            hother
        · obtain ⟨u, rfl, hnext, -, hothers⟩ := hstep.put hlaw hkey hval hplace hput
          have habsent' : ¬ Stored cfg u.map other := by
            rwa [hnext.stored_iff, hothers other hother, ← hstep.stored_iff]
          have hold := htable.lookup_cycled hval habsent hbefore
          have hnew := hnext.table.lookup_cycled hval habsent' (hempty.not.mpr hbefore)
          refine ⟨hnew.1.trans hold.1.symm, fun out => ?_⟩
          rw [hnew.2, hold.2, hbuckets]
          by_cases hhome : home cfg s.map.buckets other = i
          · rw [hhome, hvalue, hunseen other habsent hhome]
          · rw [hslots _ hhome]
    · rw [if_neg hanswer] at hsafe
      obtain ⟨habsent, hfull⟩ := not_or.mp hanswer
      rw [hstays, openPut_full htable habsent hfull hsafe.1]
      exact ⟨nofun, nofun, nofun, nofun, fun hgrowable _ _ =>
        hsafe.2.resolve_left (Bool.eq_false_iff.mp hgrowable)⟩

/-- An absent key is found exactly if no slot is empty. -/
theorem contains_absent (hval : cfg.valuePolicy.NonFailing) (hlaw : cfg.hashPolicy.Lawful)
    (hstep : InStep cfg s) (habsent : ¬ Stored cfg s.map key) :
    contains cfg s.map (some key) = true ↔ ¬ HasEmpty s.map := by
  by_cases hempty : HasEmpty s.map
  · have hlookup := (hstep.lookupRight_iff hlaw hval key).mpr (.inr hempty)
    have hnone : (s.reference key).isSome = false := by
      rw [Bool.eq_false_iff, ne_eq, ← hstep.stored_iff]
      exact habsent
    rw [hlookup.contains, hnone]
    exact iff_of_false nofun (not_not.mpr hempty)
  · exact iff_of_true (hstep.table.lookup_cycled hval habsent hempty).1 hempty

/-- **Right puts are safe**, up to the growth of a table of one bucket. -/
theorem safe_of_putRight (hlaw : cfg.hashPolicy.Lawful) (hkey : cfg.keyPolicy.NonFailing)
    (hval : cfg.valuePolicy.NonFailing) (hstep : InStep cfg s) (hbuckets : s.map.buckets ≠ 1)
    (hright : RightPut cfg s key value) : PutSafe cfg s.map key value := by
  unfold RightPut at hright
  have htable := hstep.table
  unfold PutSafe
  by_cases hgrow : shouldGrow cfg.growable s.map.bucketCount s.map.size = true
  · rw [if_pos hgrow]
    by_contra hnot
    obtain ⟨hrefused, hempty, hothers⟩ := by simpa only [not_or] using hnot
    obtain ⟨other, hother, habsent⟩ := by
      simpa only [OthersStored, not_forall, exists_prop] using hothers
    obtain ⟨m, hput, hm, hclean, hmsize, hmbuckets, hmempty, -⟩ :=
      put_of_grows key value hlaw hkey hval htable hgrow hrefused
    obtain ⟨t, hok, -⟩ := openPut_answerable hlaw hkey hval hm (.inr hmempty) value
    have hsize := htable.size_le
    have hpos := htable.pos
    have hafter := openPut_grown hlaw hkey hval hm hclean hmempty
      (by rw [hmsize, hmbuckets]; omega) hok
    have hput := hput.trans hok
    obtain ⟨u, rfl, hnext, -, hkeeps⟩ := hstep.put hlaw hkey hval (.inl hgrow) hput
    rw [hput] at hright
    -- the other key was found, and is not found any more
    have habsent' : ¬ Stored cfg u.map other := by
      rwa [hnext.stored_iff, hkeeps other hother, ← hstep.stored_iff]
    have hfound := (hstep.contains_absent hval hlaw habsent).mpr hempty
    rw [← (hright.others rfl other hother).1, hnext.contains_absent hval hlaw habsent'] at hfound
    exact hfound hafter
  · rw [if_neg hgrow]
    have hstays := put_of_stays key value htable hgrow
    by_cases hanswer : Answerable cfg s.map key
    · rw [if_pos hanswer]
      by_contra hnot
      obtain ⟨hspare, hothers, hunseen⟩ := by simpa only [not_or] using hnot
      obtain ⟨other, hother, habsent⟩ := by
        simpa only [OthersStored, not_forall, exists_prop] using hothers
      obtain ⟨t, hok, hcount, hslots, hslot, hvalue, -⟩ :=
        openPut_answerable hlaw hkey hval htable hanswer value
      have hput := hstays.trans hok
      obtain ⟨u, rfl, hnext, -, hkeeps⟩ := hstep.put hlaw hkey hval (.inr (.inl hanswer)) hput
      rw [hput] at hright
      have hsame := hright.others rfl
      have habsent' : ∀ other, cfg.hashPolicy.equal key other = false →
          ¬ Stored cfg s.map other → ¬ Stored cfg u.map other := by
        intro other hother habsent
        rwa [hnext.stored_iff, hkeeps other hother, ← hstep.stored_iff]
      have hafter : ¬ HasEmpty u.map := by
        rintro ⟨i, hi, hstate⟩
        have hne : i ≠ putSlot cfg s.map key := by
          rintro rfl
          rw [hslot] at hstate
          cases hstate
        rw [hslots i hne] at hstate
        exact hspare ⟨i, hcount ▸ hi, hne, hstate⟩
      by_cases hbefore : HasEmpty s.map
      · -- the other key was not found, and is found now
        have hfound := (hnext.contains_absent hval hlaw (habsent' other hother habsent)).mpr hafter
        rw [(hsame other hother).1, hstep.contains_absent hval hlaw habsent] at hfound
        exact hfound hbefore
      · obtain ⟨i, hi⟩ := hanswer.resolve_right hbefore
        have hi' : putSlot cfg s.map key = i := by
          rw [putSlot, htable.probe_stored hlaw hi]
        rw [hi'] at hvalue
        -- a key that is answered by this slot
        apply hunseen
        refine ⟨i, hi, fun other habsent hhome => ?_⟩
        have hother : cfg.hashPolicy.equal key other = false := by
          rw [Bool.eq_false_iff]
          exact fun hequal => habsent ⟨i, hi.1, hlaw.trans _ _ _ hi.2 hequal⟩
        have hold := htable.lookup_cycled hval habsent hbefore
        have hnew := hnext.table.lookup_cycled hval (habsent' other hother habsent) hafter
        have hget := (hsame other hother).2 value
        rw [hnew.2, hold.2, hcount, hhome, hvalue] at hget
        exact (Option.some.inj (Prod.mk.inj hget).2).symm
    · rw [if_neg hanswer]
      obtain ⟨habsent, hfull⟩ := not_or.mp hanswer
      have hnone : (s.reference key).isSome = false := by
        rw [Bool.eq_false_iff, ne_eq, ← hstep.stored_iff]
        exact habsent
      rw [hstays] at hright
      have hstale : cfg.hashPolicy.equal (s.map.slots (fallThrough cfg s.map key)).key key =
          false := by
        rw [Bool.eq_false_iff]
        intro hequal
        -- ok without a new entry
        have hprobe := htable.probe_absent_full habsent hfull true
        have hslot : target s.map.slots s.map.buckets (home cfg s.map.buckets key) true
            s.map.buckets = fallThrough cfg s.map key := rfl
        rw [hslot] at hprobe
        have hst : (openPut cfg s.map key value).1 = .ok := by
          simp only [openPut, hprobe, if_true, if_pos hequal]
        have hkept : (openPut cfg s.map key value).2.size = s.map.size := by
          simp only [openPut, hprobe, if_true, if_pos hequal, setSlot]
        have hsize := hright.size hst
        rw [hkept, hnone, if_neg Bool.false_ne_true] at hsize
        omega
      refine ⟨hstale, ?_⟩
      rw [openPut_full htable habsent hfull hstale] at hright
      by_cases hgrowable : cfg.growable = true
      · exact .inl hgrowable
      · exact .inr (hright.full (Bool.eq_false_iff.mpr hgrowable) hnone rfl)

end InStep

/-- **What a put changes.** For every bucket count that `init_open` accepts, growable or not, every
hash with a compatible key equality and copies that do not fail: at the end of every run whose puts
and removes are undamaging, a put that is safe is right, and one that is right is safe unless it
grows a table of one bucket. -/
theorem puts_right (hlaw : cfg.hashPolicy.Lawful) (hkey : cfg.keyPolicy.NonFailing)
    (hval : cfg.valuePolicy.NonFailing) {memory : ℕ → Slot K V} {bucketCount : BitVec w}
    {s₀ : OpenMap w K V} (hinit : initOpen true memory bucketCount cfg.slotStride = .ok s₀)
    {calls : List (Call K V)}
    (hgood : EveryCall (Session.call cfg) (Undamaging cfg) ⟨s₀, fun _ => none⟩ calls)
    {s : Session w K V} (hrun : final (Session.call cfg) ⟨s₀, fun _ => none⟩ calls = s)
    (key : K) (value : V) :
    (PutSafe cfg s.map key value → RightPut cfg s key value) ∧
      (s.map.buckets ≠ 1 → RightPut cfg s key value → PutSafe cfg s.map key value) := by
  subst hrun
  have hstep := hgood.final_invariant (InStep cfg)
    (fun s c hstep hc => hstep.keep_call hlaw hkey hval hc) (inStep_initOpen hinit)
  exact ⟨hstep.putRight_of_safe hlaw hkey hval, hstep.safe_of_putRight hlaw hkey hval⟩

/-- A table of four buckets with two entries and a tombstone. -/
theorem puts_right_four :
    RightPut (plainConfig false)
      (final (Session.call (plainConfig false)) ⟨plainMap 4, fun _ => none⟩
        [.put (some 0) (some 5), .put (some 1) (some 6), .remove (some 0)]) 4 7 := by
  have hright := puts_right (HashPolicy.lawful_ofDecEq _) (ElementPolicy.nonFailing_bytewise _)
    (ElementPolicy.nonFailing_bytewise _)
    (show initOpen true (fun _ => ⟨.empty, 0, 0⟩) 4 (plainConfig false).slotStride =
      .ok (plainMap 4) from rfl)
    (show EveryCall (Session.call (plainConfig false)) (Undamaging (plainConfig false))
      ⟨plainMap 4, fun _ => none⟩
      [.put (some 0) (some 5), .put (some 1) (some 6), .remove (some 0)] by decide) rfl 4 7
  apply hright.1
  unfold PutSafe
  rw [if_neg (by decide), if_pos (by decide)]
  exact .inl (by decide)

/-- Two buckets of two are filled and the first one is emptied again. Putting its old key back
returns ok and stores nothing; putting a third key returns full beside the free slot. And putting
the first key into a table of one bucket makes another key found. -/
theorem not_put_right :
    let start : ℕ → Session 64 ℕ ℕ := fun n => ⟨plainMap (BitVec.ofNat 64 n), fun _ => none⟩
    let calls : List (Call ℕ ℕ) :=
      [.put (some 0) (some 5), .put (some 1) (some 6), .remove (some 0)]
    let s := final (Session.call (plainConfig false)) (start 2) calls
    EveryCall (Session.call (plainConfig false)) (Undamaging (plainConfig false)) (start 2) calls ∧
      ¬ RightPut (plainConfig false) s 0 7 ∧ ¬ RightPut (plainConfig false) s 2 7 ∧
      ¬ RightPut (plainConfig false) (start 1) 1 7 := by
  refine ⟨by decide, fun h => ?_, fun h => ?_, fun h => ?_⟩
  · have hsize := h.size (by decide)
    exact absurd hsize (by decide)
  · have hlive := h.full (by decide) (by decide) (by decide) 0 (by decide)
    exact absurd hlive (by decide)
  · have hother := (h.others (by decide) 2 (by decide)).1
    exact absurd hother (by decide)

end OpenMap

end Memkit
