import Memkit.Hashing.OpenAddressingRehash

/-! # The open-addressing table as a finite map

A session runs calls on the table beside a reference map: what `put` stored and neither `remove`
nor `clear` took away since. Each call keeps the table in order and in step with the reference,
unless it is one of the two that the probe's fall-through misleads: a `remove`, or a `put` onto the
bytes of a dead key, in a table without an empty slot. In a state reached without those, a lookup
is right exactly for the keys that are stored or while some slot is empty. -/

namespace Memkit

namespace OpenMap

variable {w : ℕ} {K V : Type*} {cfg : HashMapConfig w K V} {s : OpenMap w K V} {key : K}

/-! ## Growth -/

/-- A growing bucket count doubles without wrapping. -/
theorem toNat_growBucketCount {current : BitVec w} (hpos : 0 < current.toNat)
    (hgrows : growBucketCount current ≠ current) :
    (growBucketCount current).toNat = 2 * current.toNat := by
  have hne : current ≠ 0 := by
    rintro rfl
    simp at hpos
  unfold growBucketCount at hgrows ⊢
  rw [if_neg hne] at hgrows ⊢
  split
  · rename_i hbig
    rw [if_pos hbig] at hgrows
    exact absurd rfl hgrows
  · rename_i hsmall
    have hle : current.toNat ≤ (2 ^ w - 1) / (2 : BitVec w).toNat := by
      rw [BitVec.lt_def, BitVec.toNat_udiv, BitVec.toNat_allOnes] at hsmall
      omega
    have hlt := current.isLt
    have htwo : (2 : BitVec w).toNat = 2 % 2 ^ w := BitVec.toNat_ofNat 2 w
    rcases Nat.lt_or_ge 1 w with hw | hw
    · have hpow : 2 ^ 2 ≤ 2 ^ w := Nat.pow_le_pow_right (by norm_num) hw
      have htwo' : (2 : BitVec w).toNat = 2 := by
        rw [htwo]
        exact Nat.mod_eq_of_lt (by omega)
      rw [htwo'] at hle
      rw [BitVec.toNat_mul, htwo', Nat.mod_eq_of_lt (by omega), Nat.mul_comm]
    · -- in words of at most one bit nothing is below the limit
      have hzero : 2 % 2 ^ w = 0 := by interval_cases w <;> rfl
      rw [htwo, hzero, Nat.div_zero] at hle
      omega

/-- **`maybe_grow`** succeeds with the same entries and no tombstones, or fails and changes
nothing but the allocation count. -/
theorem maybeGrow_spec (hlaw : cfg.hashPolicy.Lawful) (hkey : cfg.keyPolicy.NonFailing)
    (hval : cfg.valuePolicy.NonFailing) (htable : Table cfg s) :
    ∃ st m, maybeGrow cfg s = (st, m) ∧ Table cfg m ∧ m.size = s.size ∧
      (∀ k v, Holds cfg m k v ↔ Holds cfg s k v) ∧
      (st = .ok → Clean m ∧ m.buckets = 2 * s.buckets) ∧
      (growBucketCount s.bucketCount ≠ s.bucketCount → (∀ n b, cfg.allocRaw n b = .ok) →
        st = .ok) := by
  by_cases hgrows : growBucketCount s.bucketCount = s.bucketCount
  · refine ⟨.full, s, ?_, htable, rfl, fun _ _ => Iff.rfl, nofun, fun h => absurd hgrows h⟩
    simp [maybeGrow, hgrows]
  · have hdouble := toNat_growBucketCount htable.pos hgrows
    have hsize : s.size.toNat ≤ s.buckets := by
      rw [htable.count]
      exact (Finset.card_filter_le _ _).trans_eq (Finset.card_range _)
    have hpos := htable.pos
    by_cases halloc : cfg.allocRaw s.allocs (growBucketCount s.bucketCount * cfg.slotStride) = .ok
    · obtain ⟨m, hrehash, hm, hcount, hmsize, hclean, hholds⟩ :=
        openRehash_spec hlaw hkey hval htable (growBucketCount s.bucketCount)
          (by rw [hdouble]; unfold buckets at hsize hpos; omega) halloc
      refine ⟨.ok, m, ?_, hm, hmsize, hholds, ?_, fun _ _ => rfl⟩
      · simp [maybeGrow, hgrows, hrehash]
      · intro _
        exact ⟨hclean, by rw [buckets, hcount, hdouble, buckets]⟩
    · refine ⟨_, { s with allocs := s.allocs + 1 }, ?_,
        ⟨htable.pos, htable.reach, htable.distinct, htable.count⟩, rfl, fun _ _ => Iff.rfl,
        fun h => absurd h halloc, fun _ hok => absurd (hok _ _) halloc⟩
      simp [maybeGrow, hgrows, openRehash, halloc]

/-! ## What misleads a call -/

/-- The probe tells a lookup of `key` the truth. -/
def Answerable (cfg : HashMapConfig w K V) (s : OpenMap w K V) (key : K) : Prop :=
  Stored cfg s key ∨ HasEmpty s

instance (cfg : HashMapConfig w K V) (s : OpenMap w K V) (key : K) :
    Decidable (Answerable cfg s key) :=
  inferInstanceAs (Decidable (_ ∨ _))

/-- A put of `key` is not misled: the probe tells the truth, or the table grows first, or the slot
it falls through to does not have the bytes of an equal key. -/
def Placeable (cfg : HashMapConfig w K V) (s : OpenMap w K V) (key : K) : Prop :=
  shouldGrow cfg.growable s.bucketCount s.size = true ∨ Answerable cfg s key ∨
    cfg.hashPolicy.equal (s.slots (fallThrough cfg s key)).key key = false

instance (cfg : HashMapConfig w K V) (s : OpenMap w K V) (key : K) :
    Decidable (Placeable cfg s key) :=
  inferInstanceAs (Decidable (_ ∨ _ ∨ _))

/-! ## Calls -/

/-- **`open_put`** on a table in order. -/
theorem openPut_spec (hlaw : cfg.hashPolicy.Lawful) (hkey : cfg.keyPolicy.NonFailing)
    (hval : cfg.valuePolicy.NonFailing) (htable : Table cfg s)
    (hright : Answerable cfg s key ∨
      cfg.hashPolicy.equal (s.slots (fallThrough cfg s key)).key key = false) (value : V) :
    ∃ st m, openPut cfg s key value = (st, m) ∧ Table cfg m ∧
      (∀ k v, Holds cfg m k v ↔
        if st = .ok ∧ cfg.hashPolicy.equal key k = true then value = v else Holds cfg s k v) := by
  by_cases hstored : Stored cfg s key
  · obtain ⟨t, ht⟩ := hstored
    refine ⟨_, _, openPut_stored hlaw hval htable ht, htable.assigned, fun k v => ?_⟩
    simpa using holds_assigned hlaw htable ht k v
  · by_cases hempty : HasEmpty s
    · obtain ⟨t, hfree, -, hput⟩ := openPut_absent hkey hval htable hstored hempty value
      refine ⟨_, _, hput, htable.inserted hlaw hstored hfree, fun k v => ?_⟩
      simpa using holds_inserted hlaw hstored hfree.1 hfree.2.1 k v
    · have hstale : cfg.hashPolicy.equal (s.slots (fallThrough cfg s key)).key key = false := by
        rcases hright with (h | h) | h
        · exact absurd h hstored
        · exact absurd h hempty
        · exact h
      refine ⟨_, _, openPut_full htable hstored hempty hstale, htable, fun k v => ?_⟩
      simp

/-- **`put`** on a table in order: it stays in order, and the new pair is held exactly if the call
returns ok. -/
theorem put_spec (hlaw : cfg.hashPolicy.Lawful) (hkey : cfg.keyPolicy.NonFailing)
    (hval : cfg.valuePolicy.NonFailing) (htable : Table cfg s) (hplace : Placeable cfg s key)
    (value : V) :
    ∃ st m, put cfg s (some key) (some value) = (st, m) ∧ Table cfg m ∧
      (∀ k v, Holds cfg m k v ↔
        if st = .ok ∧ cfg.hashPolicy.equal key k = true then value = v else Holds cfg s k v) := by
  have hpos : s.bucketCount ≠ 0 := by
    intro h0
    have h := htable.pos
    simp [buckets, h0] at h
  by_cases hgrow : shouldGrow cfg.growable s.bucketCount s.size = true
  · obtain ⟨st, m, hmaybe, hm, hsize, hholds, hok, -⟩ := maybeGrow_spec hlaw hkey hval htable
    by_cases hst : st = .ok
    · subst hst
      obtain ⟨hclean, hdouble⟩ := hok rfl
      have hroom : m.size.toNat < m.buckets := by
        have hle : s.size.toNat ≤ s.buckets := by
          rw [htable.count]
          exact (Finset.card_filter_le _ _).trans_eq (Finset.card_range _)
        have h0 := htable.pos
        rw [hsize, hdouble]
        omega
      have hright : Answerable cfg m key := .inr (hm.hasEmpty hclean hroom)
      obtain ⟨st', m', hput, hm', hholds'⟩ := openPut_spec hlaw hkey hval hm (.inl hright) value
      refine ⟨st', m', ?_, hm', fun k v => ?_⟩
      · simp only [put, hpos, if_false, hgrow, if_true, hmaybe, ne_eq, not_true_eq_false, hput]
      · rw [hholds' k v, hholds k v]
    · refine ⟨st, m, ?_, hm, fun k v => ?_⟩
      · simp only [put, hpos, if_false, hgrow, if_true, hmaybe, ne_eq, hst, not_false_eq_true]
      · simp [hst, hholds k v]
  · obtain ⟨st, m, hput, hm, hholds⟩ := openPut_spec hlaw hkey hval htable
      (hplace.resolve_left hgrow) value
    refine ⟨st, m, ?_, hm, hholds⟩
    simp only [put, hpos, if_false, hgrow, Bool.false_eq_true, hput]

/-- Removing a stored key turns its slot into a tombstone. -/
theorem remove_stored (hlaw : cfg.hashPolicy.Lawful) (htable : Table cfg s) {t : ℕ}
    (hstored : StoredAt cfg s key t) :
    remove cfg s (some key) = (.ok, vacated cfg s t) := by
  simp [remove, openRemove, htable.probe_stored hlaw hstored, vacated]

/-- Removing an absent key is refused while some slot is empty. -/
theorem remove_absent (htable : Table cfg s) (habsent : ¬ Stored cfg s key)
    (hempty : HasEmpty s) : remove cfg s (some key) = (.notFound, s) := by
  obtain ⟨d, -, -, -, hprobe⟩ := htable.probe_absent habsent hempty false
  simp [remove, openRemove, hprobe]

/-- **`remove`** of a key that the probe is right about. -/
theorem remove_spec (hlaw : cfg.hashPolicy.Lawful) (htable : Table cfg s)
    (hright : Answerable cfg s key) :
    ∃ st m, remove cfg s (some key) = (st, m) ∧ Table cfg m ∧
      ∀ k v, Holds cfg m k v ↔ cfg.hashPolicy.equal key k = false ∧ Holds cfg s k v := by
  by_cases hstored : Stored cfg s key
  · obtain ⟨t, ht⟩ := hstored
    exact ⟨.ok, vacated cfg s t, remove_stored hlaw htable ht, htable.vacated ht.1,
      holds_vacated hlaw htable ht⟩
  · refine ⟨.notFound, s, remove_absent htable hstored (hright.resolve_left hstored), htable,
      fun k v => ?_⟩
    constructor
    · rintro ⟨i, hi, hv⟩
      refine ⟨?_, i, hi, hv⟩
      rw [Bool.eq_false_iff]
      intro hequal
      exact hstored ⟨i, hi.1, hlaw.trans _ _ _ hi.2 (hlaw.symm _ _ hequal)⟩
    · rintro ⟨-, h⟩
      exact h

/-- `get` changes nothing but the count of callback calls. -/
theorem get_map (cfg : HashMapConfig w K V) (s : OpenMap w K V) (key : Option K)
    (out : Option V) : ∃ n, (get cfg s key out).2 = { s with copies := n } := by
  unfold get
  split
  · simp only [openGet]
    split
    · exact ⟨s.copies, rfl⟩
    · exact ⟨s.copies + 1, rfl⟩
  · exact ⟨s.copies, rfl⟩

/-- A round of `open_clear` empties its slot. -/
theorem state_clearSlot_self (i : ℕ) : ((clearSlot cfg s i).slots i).state = .empty := by
  simp only [clearSlot]
  split <;> simp [setSlot]

/-- A round of `open_clear` leaves the other slots alone. -/
theorem slots_clearSlot_of_ne {i j : ℕ} (hi : i ≠ j) :
    (clearSlot cfg s j).slots i = s.slots i := by
  simp only [clearSlot]
  split <;> simp [setSlot, hi]

/-- Rounds of `open_clear` empty the slots below their bound and touch no other. -/
theorem state_foldl_clearSlot (n i : ℕ) :
    (((List.range n).foldl (clearSlot cfg) s).slots i).state =
      if i < n then .empty else (s.slots i).state := by
  induction n with
  | zero => simp
  | succ n ih =>
    rw [List.range_succ, List.foldl_append, List.foldl_cons, List.foldl_nil]
    by_cases hi : i = n
    · subst hi
      rw [state_clearSlot_self, if_pos (Nat.lt_succ_self i)]
    · rw [slots_clearSlot_of_ne hi, ih]
      simp only [show i < n + 1 ↔ i < n by omega]

/-- The loop of `open_clear` keeps the bucket count. -/
theorem bucketCount_foldl_clearSlot (is : List ℕ) :
    (is.foldl (clearSlot cfg) s).bucketCount = s.bucketCount := by
  induction is generalizing s with
  | nil => rfl
  | cons i is ih =>
    rw [List.foldl_cons, ih]
    simp only [clearSlot]
    split <;> rfl

/-- **`clear`** leaves a table in order that holds nothing. -/
theorem clear_spec (htable : Table cfg s) :
    Table cfg (clear cfg s) ∧ (∀ k v, ¬ Holds cfg (clear cfg s) k v) ∧
      HasEmpty (clear cfg s) := by
  have hpos : s.bucketCount ≠ 0 := by
    intro h0
    have h := htable.pos
    simp [buckets, h0] at h
  have hcount : (clear cfg s).buckets = s.buckets := by
    rw [clear, if_neg hpos, buckets]
    exact congrArg BitVec.toNat (bucketCount_foldl_clearSlot _)
  have hempty : ∀ i < (clear cfg s).buckets, ((clear cfg s).slots i).state = .empty := by
    intro i hi
    rw [hcount] at hi
    rw [clear, if_neg hpos]
    exact (state_foldl_clearSlot s.buckets i).trans (if_pos hi)
  have hsize : (clear cfg s).size = 0 := by
    rw [clear, if_neg hpos]
  refine ⟨table_of_empty (hcount ▸ htable.pos) hsize hempty, not_holds_of_empty hempty, 0, ?_, ?_⟩
  · exact hcount ▸ htable.pos
  · exact hempty 0 (hcount ▸ htable.pos)

/-! ## Sessions -/

/-- The table and the reference map that lookups are compared with. -/
structure Session (w : ℕ) (K V : Type*) where
  map : OpenMap w K V
  reference : K → Option V

/-- What a call does to the reference: a `put` that returns ok stores its value for every key equal
to its own, a `remove` and a `clear` take away. -/
def track (cfg : HashMapConfig w K V) (m : K → Option V) : Call K V → Reply V → K → Option V
  | .put (some key) (some value), .put .ok =>
    fun k => if cfg.hashPolicy.equal key k then some value else m k
  | .remove (some key), _ => fun k => if cfg.hashPolicy.equal key k then none else m k
  | .clear, _ => fun _ => none
  | _, _ => m

/-- One call, with the reference after it. -/
def Session.call (cfg : HashMapConfig w K V) (s : Session w K V) (c : Call K V) :
    Reply V × Session w K V :=
  ((s.map.call cfg c).1, ⟨(s.map.call cfg c).2, track cfg s.reference c (s.map.call cfg c).1⟩)

/-- A call that the fall-through of the probe does not make change the wrong slot. -/
def Undamaging (cfg : HashMapConfig w K V) (s : Session w K V) : Call K V → Prop
  | .put (some key) (some _) => Placeable cfg s.map key
  | .remove (some key) => Answerable cfg s.map key
  | _ => True

instance (cfg : HashMapConfig w K V) (s : Session w K V) :
    ∀ c, Decidable (Undamaging cfg s c)
  | .put (some key) (some _) => inferInstanceAs (Decidable (Placeable cfg s.map key))
  | .remove (some key) => inferInstanceAs (Decidable (Answerable cfg s.map key))
  | .put none _ | .put (some _) none | .remove none | .get _ _ | .contains _ | .clear =>
    isTrue trivial

/-- What `get` owes for a key that the reference stores as `stored`. -/
def answer (stored : Option V) (out : V) : Status × Option V :=
  match stored with
  | some v => (.ok, some v)
  | none => (.notFound, some out)

/-- Lookups of `key` say what the reference says: `contains` and `get` find exactly a stored key
with its last value, and `get` and `remove` of an absent key return not_found and change nothing. -/
structure LookupRight (cfg : HashMapConfig w K V) (s : OpenMap w K V) (key : K) (stored : Option V) :
    Prop where
  contains : contains cfg s (some key) = stored.isSome
  get : ∀ out, (get cfg s (some key) (some out)).1 = answer stored out
  get_absent : stored = none → ∀ out, (OpenMap.get cfg s (some key) (some out)).2 = s
  remove_absent : stored = none → remove cfg s (some key) = (.notFound, s)

/-- The invariant of a session: the table is in order and holds what the reference says. -/
structure InStep (cfg : HashMapConfig w K V) (s : Session w K V) : Prop where
  table : Table cfg s.map
  holds : ∀ k v, Holds cfg s.map k v ↔ s.reference k = some v

namespace InStep

variable {s : Session w K V}

/-- The reference has exactly the stored keys. -/
theorem stored_iff (hstep : InStep cfg s) : Stored cfg s.map key ↔ (s.reference key).isSome := by
  rw [Option.isSome_iff_exists]
  constructor
  · rintro ⟨i, hi⟩
    exact ⟨_, (hstep.holds key _).mp ⟨i, hi, rfl⟩⟩
  · rintro ⟨v, hv⟩
    obtain ⟨i, hi, -⟩ := (hstep.holds key v).mpr hv
    exact ⟨i, hi⟩

/-- Counting callback calls does not change the table. -/
theorem of_copies (hstep : InStep cfg s) (n : ℕ) :
    InStep cfg ⟨{ s.map with copies := n }, s.reference⟩ :=
  ⟨⟨hstep.table.pos, hstep.table.reach, hstep.table.distinct, hstep.table.count⟩, hstep.holds⟩

/-- An undamaging call keeps table and reference in step. -/
theorem keep_call (hlaw : cfg.hashPolicy.Lawful) (hkey : cfg.keyPolicy.NonFailing)
    (hval : cfg.valuePolicy.NonFailing) (hstep : InStep cfg s) {c : Call K V}
    (hgood : Undamaging cfg s c) : InStep cfg (s.call cfg c).2 := by
  cases c with
  | put key value =>
    cases key with
    | none => exact hstep
    | some key =>
      cases value with
      | none => exact hstep
      | some value =>
        obtain ⟨st, m, hput, htable, hholds⟩ :=
          put_spec hlaw hkey hval hstep.table hgood value
        simp only [Session.call, OpenMap.call, hput]
        refine ⟨htable, fun k v => ?_⟩
        rw [hholds k v]
        by_cases hst : st = .ok
        · subst hst
          by_cases hequal : cfg.hashPolicy.equal key k = true
          · simp [track, hequal]
          · simp [track, hequal, hstep.holds k v]
        · -- the reference follows the status: a put that failed has stored nothing in either
          have htrack : track cfg s.reference (.put (some key) (some value)) (.put st) =
              s.reference := by
            cases st <;> first | rfl | exact absurd rfl hst
          simp [htrack, hst, hstep.holds k v]
  | get key out =>
    obtain ⟨n, hn⟩ := get_map cfg s.map key out
    have hnext := hstep.of_copies n
    rw [← hn] at hnext
    exact hnext
  | remove key =>
    cases key with
    | none => exact hstep
    | some key =>
      obtain ⟨st, m, hremove, htable, hholds⟩ := remove_spec hlaw hstep.table hgood
      simp only [Session.call, OpenMap.call, hremove, track]
      refine ⟨htable, fun k v => ?_⟩
      rw [hholds k v, hstep.holds k v]
      by_cases hequal : cfg.hashPolicy.equal key k = true
      · simp [hequal]
      · simp [hequal]
  | contains key => exact hstep
  | clear =>
    obtain ⟨htable, hnone, -⟩ := clear_spec hstep.table
    refine ⟨htable, fun k v => ?_⟩
    constructor
    · intro h
      exact absurd h (hnone k v)
    · intro h
      cases h

/-- Lookups of a key are right exactly when the probe tells the truth about it. -/
theorem lookupRight_iff (hlaw : cfg.hashPolicy.Lawful) (hval : cfg.valuePolicy.NonFailing)
    (hstep : InStep cfg s) (key : K) :
    LookupRight cfg s.map key (s.reference key) ↔ Answerable cfg s.map key := by
  by_cases hstored : Stored cfg s.map key
  · -- found where it is stored
    obtain ⟨i, hi⟩ := hstored
    have hprobe := hstep.table.probe_stored hlaw hi false
    have hvalue := (hstep.holds key _).mp ⟨i, hi, rfl⟩
    refine iff_of_true ⟨?_, ?_, ?_, ?_⟩ (.inl ⟨i, hi⟩)
    · simp [OpenMap.contains, openContains, hprobe, hvalue]
    · intro out
      simp [OpenMap.get, openGet, hprobe, hvalue, answer, hval.copyAssign]
    · simp [hvalue]
    · simp [hvalue]
  · have hvalue : s.reference key = none := by
      rw [← Option.not_isSome_iff_eq_none, ← hstep.stored_iff]
      exact hstored
    by_cases hempty : HasEmpty s.map
    · obtain ⟨d, -, -, -, hprobe⟩ := hstep.table.probe_absent hstored hempty false
      refine iff_of_true ⟨?_, ?_, ?_, ?_⟩ (.inr hempty)
      · simp [OpenMap.contains, openContains, hprobe, hvalue]
      · intro out
        simp [OpenMap.get, openGet, hprobe, hvalue, answer]
      · intro _ out
        simp [OpenMap.get, openGet, hprobe]
      · intro _
        exact OpenMap.remove_absent hstep.table hstored hempty
    · -- the fall-through reports the key as found
      have hprobe := hstep.table.probe_absent_full hstored hempty false
      apply iff_of_false
      · intro hright
        have hcontains := hright.contains
        simp [OpenMap.contains, openContains, hprobe, hvalue] at hcontains
      · rintro (h | h)
        · exact hstored h
        · exact hempty h

end InStep

/-- Rounds of `init_open` empty the slots below their bound. -/
theorem state_foldl_initSlot (memory : ℕ → Slot K V) (n i : ℕ) :
    ((List.range n).foldl initSlot memory i).state = if i < n then .empty else (memory i).state := by
  induction n with
  | zero => simp
  | succ n ih =>
    rw [List.range_succ, List.foldl_append, List.foldl_cons, List.foldl_nil, initSlot]
    by_cases hi : i = n
    · subst hi
      rw [Function.update_self, if_pos (Nat.lt_succ_self i)]
    · rw [Function.update_of_ne hi, ih]
      simp only [show i < n + 1 ↔ i < n by omega]

/-- `init_open` accepts with at least one bucket, all of them empty. -/
theorem initOpen_spec {hasSlots : Bool} {memory : ℕ → Slot K V} {bucketCount slotStride : BitVec w}
    (hinit : initOpen hasSlots memory bucketCount slotStride = .ok s) :
    0 < s.buckets ∧ s.size = 0 ∧ ∀ i < s.buckets, (s.slots i).state = .empty := by
  unfold initOpen at hinit
  split at hinit
  · cases hinit
  · rename_i hargs
    cases hinit
    refine ⟨?_, rfl, ?_⟩
    · rcases Nat.eq_zero_or_pos bucketCount.toNat with h0 | h0
      · exact absurd (.inr (.inl (BitVec.eq_of_toNat_eq (by simpa using h0)))) hargs
      · exact h0
    · intro i hi
      exact (state_foldl_initSlot memory _ i).trans (if_pos hi)

/-- A freshly initialised table is in step with the empty reference. -/
theorem inStep_initOpen {hasSlots : Bool} {memory : ℕ → Slot K V}
    {bucketCount slotStride : BitVec w} (hinit : initOpen hasSlots memory bucketCount slotStride = .ok s) :
    InStep cfg ⟨s, fun _ => none⟩ := by
  obtain ⟨hpos, hsize, hempty⟩ := initOpen_spec hinit
  exact ⟨table_of_empty hpos hsize hempty,
    fun k v => iff_of_false (not_holds_of_empty hempty k v) nofun⟩

/-- **Lookups are right exactly where the probe can end.** For every bucket count that `init_open`
accepts, growable or not, every hash with a compatible key equality and copies that do not fail:
at the end of every run whose puts and removes are undamaging, lookups of a key are right exactly
when the key is stored or some slot is empty. -/
theorem lookups_right_iff_answerable (hlaw : cfg.hashPolicy.Lawful)
    (hkey : cfg.keyPolicy.NonFailing) (hval : cfg.valuePolicy.NonFailing) {memory : ℕ → Slot K V}
    {bucketCount : BitVec w} {s₀ : OpenMap w K V}
    (hinit : initOpen true memory bucketCount cfg.slotStride = .ok s₀) {calls : List (Call K V)}
    (hgood : Mealy.EveryCall (Session.call cfg) (Undamaging cfg) ⟨s₀, fun _ => none⟩ calls)
    {s : Session w K V} (hrun : Mealy.final (Session.call cfg) ⟨s₀, fun _ => none⟩ calls = s) :
    ∀ key, LookupRight cfg s.map key (s.reference key) ↔ Answerable cfg s.map key := by
  subst hrun
  intro key
  have hstep := hgood.final_invariant (InStep cfg)
    (fun s c hstep hc => hstep.keep_call hlaw hkey hval hc) (inStep_initOpen hinit)
  exact hstep.lookupRight_iff hlaw hval key

/-- A map from numbers to numbers with 64-bit sizes, hashed by the identity. -/
def plainConfig (growable : Bool) : HashMapConfig 64 ℕ ℕ where
  keyPolicy := .bytewise ℕ
  valuePolicy := .bytewise ℕ
  hashPolicy := .ofDecEq (BitVec.ofNat 64)
  growable := growable
  slotStride := 12
  allocRaw _ _ := .ok
  zeroKey := 0
  zeroValue := 0

/-- The plain map with `n` empty buckets. -/
def plainMap (n : BitVec 64) : OpenMap 64 ℕ ℕ where
  slots := (List.range n.toNat).foldl initSlot fun _ => ⟨.empty, 0, 0⟩
  bucketCount := n
  size := 0
  copies := 0
  allocs := 0

theorem init_plainMap_three :
    initOpen true (fun _ => ⟨.empty, 0, 0⟩) 3 (plainConfig false).slotStride = .ok (plainMap 3) :=
  rfl

/-- Two of three buckets are filled, one of them is emptied again. -/
theorem lookups_right_iff_answerable_three :
    LookupRight (plainConfig false)
      (Mealy.final (Session.call (plainConfig false)) ⟨plainMap 3, fun _ => none⟩
        [.put (some 1) (some 10), .put (some 4) (some 40), .remove (some 1)]).map 4 (some 40) ∧
    LookupRight (plainConfig false)
      (Mealy.final (Session.call (plainConfig false)) ⟨plainMap 3, fun _ => none⟩
        [.put (some 1) (some 10), .put (some 4) (some 40), .remove (some 1)]).map 1 none := by
  have hright : ∀ key, LookupRight (plainConfig false) _ key _ ↔ _ :=
    lookups_right_iff_answerable (HashPolicy.lawful_ofDecEq _)
      (ElementPolicy.nonFailing_bytewise _) (ElementPolicy.nonFailing_bytewise _)
      init_plainMap_three
      (show Mealy.EveryCall (Session.call (plainConfig false)) (Undamaging (plainConfig false))
        ⟨plainMap 3, fun _ => none⟩
        [.put (some 1) (some 10), .put (some 4) (some 40), .remove (some 1)] by decide) rfl
  exact ⟨(hright 4).mpr (by decide), (hright 1).mpr (by decide)⟩

/-- In a full table of one bucket an absent key is found, with the value of another key, and
removing it removes the other key. -/
theorem full_table_finds_absent_key :
    ¬ LookupRight (plainConfig false)
      (Mealy.final (Session.call (plainConfig false)) ⟨plainMap 1, fun _ => none⟩
        [.put (some 1) (some 10)]).map 2 none ∧
    (Mealy.outputs (Session.call (plainConfig false)) ⟨plainMap 1, fun _ => none⟩
      [.put (some 1) (some 10), .contains (some 2), .get (some 2) (some 0), .remove (some 2),
        .contains (some 1)]) =
      [.put .ok, .contains true, .get .ok (some 10), .remove .ok, .contains true] := by
  constructor
  · intro hright
    exact absurd hright.contains (by decide)
  · decide

end OpenMap

end Memkit
