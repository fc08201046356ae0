import Memkit.Sets.Bitset

/-! # Bit sets are sets

The refinement between `Bitset` and `IndexSet`.

* **`Inv`** — the bits of the last byte that belong to no number are zero. Every operation on whole
  bytes keeps it by its mask, and the count, the comparison and the stored bytes rely on it.
* **`toSet`** — the set that a bit set stands for.
* **`refines_sets_iff`** — the answers are those of the reference exactly if no capacity is so large
  that its number of bytes wraps. -/

namespace Memkit

namespace Bitset

open Mealy ByteBits

variable {w : ℕ} {ι : Type*} {b other : Bitset w} {bits source : ℕ → BitVec 8}

/-- The storage has the bytes that the capacity needs, and no bit is set from the capacity on. -/
structure Inv (b : Bitset w) : Prop where
  bytes : b.storage.isSome → b.storageBytes.toNat = (b.capacity.toNat + 7) / 8
  zero : ∀ bits ∈ b.storage, ∀ j, b.capacity.toNat ≤ j → j < 8 * b.storageBytes.toNat →
    ByteBits.test bits j = false

/-- The set that a bit set stands for. -/
def toSet (b : Bitset w) : Option IndexSet :=
  b.storage.map fun bits =>
    ⟨b.capacity.toNat, members bits b.capacity.toNat, fun _ hi => (mem_members.mp hi).1⟩

theorem toSet_of_none (hnone : b.storage = none) : b.toSet = none := by
  rw [toSet, hnone, Option.map_none]

theorem toSet_of_some (hsome : b.storage = some bits) :
    b.toSet = some ⟨b.capacity.toNat, members bits b.capacity.toNat,
      fun _ hi => (mem_members.mp hi).1⟩ := by
  rw [toSet, hsome, Option.map_some]

theorem Inv.bytes_eq (h : b.Inv) (hsome : b.storage = some bits) :
    b.storageBytes.toNat = (b.capacity.toNat + 7) / 8 :=
  h.bytes (by rw [hsome]; rfl)

/-- The bytes have room for the capacity. -/
theorem Inv.capacity_le (h : b.Inv) (hsome : b.storage = some bits) :
    b.capacity.toNat ≤ 8 * b.storageBytes.toNat := by
  rw [h.bytes_eq hsome]
  omega

/-- All bits that are set are members. -/
theorem Inv.members_bytes (h : b.Inv) (hsome : b.storage = some bits) :
    members bits (8 * b.storageBytes.toNat) = members bits b.capacity.toNat :=
  members_of_zero (h.capacity_le hsome) (h.zero bits hsome)

/-- Testing a bit of the storage, in range or not. -/
theorem Inv.test_iff (h : b.Inv) (hsome : b.storage = some bits) {j : ℕ}
    (hj : j < 8 * b.storageBytes.toNat) :
    ByteBits.test bits j = true ↔ j ∈ members bits b.capacity.toNat := by
  rw [← h.members_bytes hsome, mem_members]
  exact (and_iff_right hj).symm

/-! ## Operations on whole bytes -/

/-- What the bytes hold after they are written and masked. -/
theorem Inv.test_rewrite (h : b.Inv) (hsome : b.storage = some bits) {j : ℕ}
    (hj : j < 8 * b.storageBytes.toNat) :
    ByteBits.test (b.applyTailMask (overwrite b.storageBytes.toNat source bits)) j =
      (ByteBits.test source j && decide (j < b.capacity.toNat)) := by
  have hne : b.storageBytes ≠ 0 := by
    intro hzero
    rw [hzero, show (0 : BitVec w).toNat = 0 from BitVec.toNat_zero] at hj
    omega
  have hkeep : b.applyTailMask (overwrite b.storageBytes.toNat source bits) =
      keepBelow b.capacity.toNat (overwrite b.storageBytes.toNat source bits) := by
    rw [applyTailMask, if_neg hne, h.bytes_eq hsome]
    rfl
  rw [hkeep, test_keepBelow (by rw [← h.bytes_eq hsome]; exact hj), test_overwrite hj]

/-- **Whole bytes**: the members are those of the bytes written, and the mask keeps the rest
zero. -/
theorem Inv.rewrite (h : b.Inv) (hsome : b.storage = some bits) (source : ℕ → BitVec 8) :
    (b.rewrite bits source).Inv ∧
      (b.rewrite bits source).toSet =
        some (IndexSet.cut b.capacity.toNat (members source b.capacity.toNat)) := by
  have hle := h.capacity_le hsome
  refine ⟨⟨fun _ => h.bytes_eq hsome, ?_⟩, ?_⟩
  · intro bits' hbits' j hj hlt
    obtain rfl := Option.some.inj hbits'
    have hge : ¬ j < b.capacity.toNat := not_lt.mpr hj
    rw [h.test_rewrite hsome hlt, decide_eq_false hge, Bool.and_false]
  · rw [toSet_of_some (show (b.rewrite bits source).storage = some _ from rfl)]
    congr 1
    ext j
    · rfl
    · rw [IndexSet.members_cut, mem_members, Finset.mem_filter, mem_members]
      constructor
      · rintro ⟨hj, htest⟩
        rw [h.test_rewrite hsome (hj.trans_le hle), Bool.and_eq_true] at htest
        exact ⟨⟨hj, htest.1⟩, hj⟩
      · rintro ⟨⟨hj, htest⟩, -⟩
        refine ⟨hj, ?_⟩
        rw [h.test_rewrite hsome (lt_of_lt_of_le hj hle), htest, Bool.true_and]
        exact decide_eq_true hj

/-! ## One bit -/

/-- **One bit**: a change of the byte that only changes the bit of the index. -/
theorem Inv.change (h : b.Inv) (index : ℕ) {f : (ℕ → BitVec 8) → ℕ → ℕ → BitVec 8}
    {g : Finset ℕ → Finset ℕ}
    (hother : ∀ bits, ∀ j, j ≠ index → ByteBits.test (f bits index) j = ByteBits.test bits j)
    (hmem : ∀ bits, ∀ n, index < n → ∀ j, j ∈ members (f bits index) n ↔ j ∈ g (members bits n)) :
    (b.change index f).1 = (IndexSet.change b.toSet index g).1 ∧
      (b.change index f).2.toSet = (IndexSet.change b.toSet index g).2 ∧
      (b.change index f).2.Inv := by
  unfold Bitset.change
  cases hsome : b.storage with
  | none =>
    rw [toSet_of_none hsome]
    exact ⟨rfl, rfl, h⟩
  | some bits =>
    rw [toSet_of_some hsome]
    by_cases hle : b.capacity.toNat ≤ index
    · simp only [IndexSet.change, if_pos hle]
      exact ⟨trivial, toSet_of_some hsome, h⟩
    · simp only [IndexSet.change, if_neg hle]
      have hlt : index < b.capacity.toNat := not_le.mp hle
      refine ⟨trivial, ?_, fun _ => h.bytes_eq hsome, ?_⟩
      · have hwritten : ({ b with storage := some (f bits index) } : Bitset w).storage =
            some (f bits index) := rfl
        rw [toSet_of_some hwritten]
        congr 1
        ext j
        · rfl
        · rw [IndexSet.members_cut, Finset.mem_filter, ← hmem bits _ hlt j]
          exact (and_iff_left_of_imp fun hj => (mem_members.mp hj).1).symm
      · intro bits' hbits' j hj hj'
        obtain rfl := Option.some.inj hbits'
        have hj : b.capacity.toNat ≤ j := hj
        rw [hother bits j (by omega)]
        exact h.zero bits hsome j hj hj'

/-- `set`. -/
theorem Inv.set (h : b.Inv) (index : ℕ) :
    (b.set index).1 = (IndexSet.change b.toSet index (insert index)).1 ∧
      (b.set index).2.toSet = (IndexSet.change b.toSet index (insert index)).2 ∧
      (b.set index).2.Inv := by
  refine h.change index (fun bits j hj => ?_) fun bits n hn j => ?_
  · rw [test_set, decide_eq_false hj, Bool.false_or]
  · rw [mem_members, test_set, Bool.or_eq_true, decide_eq_true_eq, Finset.mem_insert, mem_members]
    constructor
    · rintro ⟨hj, heq | htest⟩
      · exact .inl heq
      · exact .inr ⟨hj, htest⟩
    · rintro (rfl | ⟨hj, htest⟩)
      · exact ⟨hn, .inl rfl⟩
      · exact ⟨hj, .inr htest⟩

/-- `reset`. -/
theorem Inv.reset (h : b.Inv) (index : ℕ) :
    (b.reset index).1 = (IndexSet.change b.toSet index (·.erase index)).1 ∧
      (b.reset index).2.toSet = (IndexSet.change b.toSet index (·.erase index)).2 ∧
      (b.reset index).2.Inv := by
  refine h.change index (fun bits j hj => ?_) fun bits n _ j => ?_
  · rw [test_clear, decide_eq_false hj, Bool.not_false, Bool.true_and]
  · rw [mem_members, test_clear, Bool.and_eq_true, Bool.not_eq_true', decide_eq_false_iff_not,
      Finset.mem_erase, mem_members]
    exact and_left_comm

/-- `toggle`. -/
theorem Inv.toggle (h : b.Inv) (index : ℕ) :
    (b.toggle index).1 = (IndexSet.change b.toSet index (symmDiff {index})).1 ∧
      (b.toggle index).2.toSet = (IndexSet.change b.toSet index (symmDiff {index})).2 ∧
      (b.toggle index).2.Inv := by
  refine h.change index (fun bits j hj => ?_) fun bits n hn j => ?_
  · rw [test_toggle, decide_eq_false hj, Bool.false_xor]
  · rw [mem_members, test_toggle, Finset.mem_symmDiff, Finset.mem_singleton, mem_members]
    by_cases hj : j = index
    · rw [hj, decide_eq_true rfl, Bool.true_xor, Bool.not_eq_true']
      simp [hn]
    · rw [decide_eq_false hj, Bool.false_xor]
      simp [hj]

/-- `assign`. -/
theorem Inv.assign (h : b.Inv) (value : Bool) (index : ℕ) :
    let g := fun s : Finset ℕ => if value then insert index s else s.erase index
    (b.assign value index).1 = (IndexSet.change b.toSet index g).1 ∧
      (b.assign value index).2.toSet = (IndexSet.change b.toSet index g).2 ∧
      (b.assign value index).2.Inv := by
  cases value with
  | true => exact h.set index
  | false => exact h.reset index

/-! ## Sets -/

/-- Bytes written over an initialised bit set give a set if their bits do. -/
theorem Inv.rewrite_cut (h : b.Inv) (hsome : b.storage = some bits) {t : Finset ℕ}
    (hmem : ∀ j < b.capacity.toNat, ByteBits.test source j = true ↔ j ∈ t) :
    (b.rewrite bits source).toSet = some (IndexSet.cut b.capacity.toNat t) ∧
      (b.rewrite bits source).Inv := by
  obtain ⟨hinv, hset⟩ := h.rewrite hsome source
  refine ⟨hset.trans ?_, hinv⟩
  congr 1
  ext j
  · rfl
  · rw [IndexSet.members_cut, IndexSet.members_cut, Finset.mem_filter, Finset.mem_filter,
      mem_members]
    constructor
    · rintro ⟨⟨hj, htest⟩, -⟩
      exact ⟨(hmem j hj).mp htest, hj⟩
    · rintro ⟨ht, hj⟩
      exact ⟨⟨hj, (hmem j hj).mpr ht⟩, hj⟩

/-- `set_all`. -/
theorem Inv.setAll (h : b.Inv) :
    let r := IndexSet.replace b.toSet fun m => Finset.range m.bound
    b.setAll.1 = r.1 ∧ b.setAll.2.toSet = r.2 ∧ b.setAll.2.Inv := by
  unfold Bitset.setAll
  cases hsome : b.storage with
  | none =>
    rw [toSet_of_none hsome]
    exact ⟨rfl, rfl, h⟩
  | some bits =>
    rw [toSet_of_some hsome]
    refine ⟨rfl, h.rewrite_cut hsome fun j hj => ?_⟩
    have hbit : ∀ k < 8, (0xFF : BitVec 8).getLsbD k = true := by decide
    rw [test_eq, hbit _ (Nat.mod_lt _ (by norm_num)), Finset.mem_range]
    exact iff_of_true rfl hj

/-- `complement`. -/
theorem Inv.complement (h : b.Inv) :
    let r := IndexSet.replace b.toSet fun m => Finset.range m.bound \ m.members
    b.complement.1 = r.1 ∧ b.complement.2.toSet = r.2 ∧ b.complement.2.Inv := by
  unfold Bitset.complement
  cases hsome : b.storage with
  | none =>
    rw [toSet_of_none hsome]
    exact ⟨rfl, rfl, h⟩
  | some bits =>
    rw [toSet_of_some hsome]
    refine ⟨rfl, h.rewrite_cut hsome fun j hj => ?_⟩
    have hlt : j % 8 < 8 := Nat.mod_lt _ (by norm_num)
    rw [test_eq, BitVec.getLsbD_not, decide_eq_true hlt, Bool.true_and, Bool.not_eq_true',
      Finset.mem_sdiff, Finset.mem_range, mem_members, ← test_eq, ← Bool.not_eq_true]
    exact ⟨fun hnot => ⟨hj, fun hmem => hnot hmem.2⟩, fun hmem htest => hmem.2 ⟨hj, htest⟩⟩

/-- `union_with`, `intersect_with`, `xor_with` and `copy_from`: the bits are combined as the members
are. -/
theorem Inv.combine (h : b.Inv) (other : Bitset w) {f : BitVec 8 → BitVec 8 → BitVec 8}
    {g : Finset ℕ → Finset ℕ → Finset ℕ} {p : Prop → Prop → Prop}
    (hbit : ∀ x y : BitVec 8, ∀ k < 8,
      (f x y).getLsbD k = true ↔ p (x.getLsbD k = true) (y.getLsbD k = true))
    (hmem : ∀ (s t : Finset ℕ) j, j ∈ g s t ↔ p (j ∈ s) (j ∈ t)) :
    let r := IndexSet.combine b.toSet other.toSet g
    (b.combineWith other f).1 = r.1 ∧ (b.combineWith other f).2.toSet = r.2 ∧
      (b.combineWith other f).2.Inv := by
  unfold combineWith
  cases hsome : b.storage with
  | none =>
    rw [toSet_of_none hsome]
    exact ⟨rfl, rfl, h⟩
  | some bits =>
    cases hsome' : other.storage with
    | none =>
      rw [toSet_of_some hsome, toSet_of_none hsome']
      exact ⟨rfl, rfl, h⟩
    | some otherBits =>
      rw [toSet_of_some hsome, toSet_of_some hsome']
      by_cases hcap : b.capacity = other.capacity
      · have hbound : b.capacity.toNat = other.capacity.toNat := by rw [hcap]
        simp only [IndexSet.combine, hcap, ne_eq, not_true_eq_false, if_false]
        rw [← hcap]
        refine ⟨trivial, h.rewrite_cut hsome fun j hj => ?_⟩
        rw [test_eq, hbit _ _ _ (Nat.mod_lt _ (by norm_num)), hmem, mem_members, mem_members,
          test_eq, test_eq, and_iff_right hj, and_iff_right hj]
      · have hbound : b.capacity.toNat ≠ other.capacity.toNat :=
          fun heq => hcap (BitVec.eq_of_toNat_eq heq)
        simp only [IndexSet.combine, ne_eq, hcap, hbound, not_false_eq_true, if_true]
        exact ⟨trivial, toSet_of_some hsome, h⟩

/-- `load_bytes`. -/
theorem Inv.loadBytes (h : b.Inv) (bytes : Option (List (BitVec 8))) :
    (b.loadBytes bytes).1 = (IndexSet.load b.toSet bytes).1 ∧
      (b.loadBytes bytes).2.toSet = (IndexSet.load b.toSet bytes).2 ∧
      (b.loadBytes bytes).2.Inv := by
  unfold Bitset.loadBytes
  cases hsome : b.storage with
  | none =>
    rw [toSet_of_none hsome]
    exact ⟨rfl, rfl, h⟩
  | some bits =>
    rw [toSet_of_some hsome]
    cases bytes with
    | none => exact ⟨rfl, toSet_of_some hsome, h⟩
    | some bytes =>
      simp only [IndexSet.load, ← h.bytes_eq hsome]
      by_cases hlen : bytes.length < b.storageBytes.toNat
      · simp only [if_pos hlen]
        exact ⟨trivial, toSet_of_some hsome, h⟩
      · simp only [if_neg hlen]
        refine ⟨trivial, h.rewrite_cut hsome fun j hj => ?_⟩
        rw [mem_members]
        exact (and_iff_right hj).symm

/-- `clear`. -/
theorem Inv.clear (h : b.Inv) :
    b.clear.toSet = b.toSet.map (fun m => IndexSet.cut m.bound ∅) ∧ b.clear.Inv := by
  have hzero : ∀ j, ByteBits.test (fun _ => 0) j = false := by
    intro j
    rw [test_eq]
    exact BitVec.getLsbD_zero
  unfold Bitset.clear
  cases hsome : b.storage with
  | none =>
    rw [toSet_of_none hsome]
    exact ⟨rfl, nofun, nofun⟩
  | some bits =>
    rw [toSet_of_some hsome]
    refine ⟨?_, fun _ => h.bytes_eq hsome, ?_⟩
    · rw [toSet_of_some rfl]
      simp only [Option.map_some]
      congr 1
      ext j
      · rfl
      · rw [IndexSet.members_cut, Finset.mem_filter, mem_members]
        refine iff_of_false (fun hmem => ?_) fun hmem => absurd hmem.1 (Finset.notMem_empty j)
        rw [test_overwrite (hmem.1.trans_le (h.capacity_le hsome)), hzero] at hmem
        exact absurd hmem.2 Bool.false_ne_true
    · intro bits' hbits' j _ hj
      obtain rfl := Option.some.inj hbits'
      exact (test_overwrite hj).trans (hzero j)

/-! ## Observers -/

/-- `test`. -/
theorem test_eq_mem (b : Bitset w) (index : ℕ) :
    b.test index = b.toSet.any fun m => decide (index ∈ m.members) := by
  unfold Bitset.test
  cases hsome : b.storage with
  | none => rw [toSet_of_none hsome, Option.any_none]
  | some bits =>
    rw [toSet_of_some hsome, Option.any_some]
    dsimp only
    by_cases hle : b.capacity.toNat ≤ index
    · rw [if_pos hle, decide_eq_false fun hmem => not_lt.mpr hle (mem_members.mp hmem).1]
    · rw [if_neg hle, Bool.eq_iff_iff, decide_eq_true_eq, mem_members]
      exact (and_iff_right (not_le.mp hle)).symm

/-- The loop of `popcount_byte` counts the bits that are set. -/
theorem popcountByte_eq (value : BitVec 8) : popcountByte value = weight value := by
  induction value using popcountByte.induct with
  | case1 =>
    rw [popcountByte, if_pos rfl]
    rfl
  | case2 value hne ih =>
    have hlow : (value &&& 1).toNat = (value.getLsbD 0).toNat := by
      rw [BitVec.toNat_and, show (1 : BitVec 8).toNat = 1 from rfl, Nat.and_one_is_mod,
        BitVec.getLsbD, Nat.testBit_zero]
      rcases Nat.mod_two_eq_zero_or_one value.toNat with h | h <;> rw [h] <;> rfl
    have hshift : ∀ k, (value >>> 1).getLsbD k = value.getLsbD (k + 1) := by
      intro k
      rw [BitVec.getLsbD_ushiftRight, Nat.add_comm]
    have hrest : weight (value >>> 1) = ∑ k ∈ Finset.range 7, (value.getLsbD (k + 1)).toNat := by
      rw [weight, Finset.sum_range_succ, hshift, BitVec.getLsbD_of_ge value (7 + 1) le_rfl]
      simp only [hshift, Bool.toNat_false, Nat.add_zero]
    rw [popcountByte, if_neg hne, ih, hlow, hrest, weight, Finset.sum_range_succ' _ 7, Nat.add_comm]

/-- The loop of `size`. -/
theorem foldl_add_ofNat (f : ℕ → ℕ) (n : ℕ) :
    (List.range n).foldl (fun count i => count + BitVec.ofNat w (f i)) 0 =
      BitVec.ofNat w (∑ i ∈ Finset.range n, f i) := by
  induction n with
  | zero => rfl
  | succ n ih =>
    rw [List.range_succ, List.foldl_append, ih, List.foldl_cons, List.foldl_nil,
      Finset.sum_range_succ, BitVec.ofNat_add]

/-- `size` is the number of members. -/
theorem Inv.size_eq (h : b.Inv) :
    b.size.toNat = b.toSet.elim 0 fun m => m.members.card := by
  unfold Bitset.size
  cases hsome : b.storage with
  | none =>
    rw [toSet_of_none hsome]
    exact BitVec.toNat_zero
  | some bits =>
    rw [toSet_of_some hsome, Option.elim_some]
    dsimp only
    have hcard : (members bits b.capacity.toNat).card =
        ∑ i ∈ Finset.range b.storageBytes.toNat, popcountByte (bits i) := by
      rw [← h.members_bytes hsome, card_members_bytes]
      exact Finset.sum_congr rfl fun i _ => (popcountByte_eq (bits i)).symm
    rw [hcard]
    by_cases hzero : b.storageBytes = 0
    · rw [if_pos hzero, hzero, show (0 : BitVec w).toNat = 0 from BitVec.toNat_zero,
        Finset.sum_range_zero]
    · have hpos : b.storageBytes.toNat ≠ 0 := fun heq =>
        hzero (BitVec.eq_of_toNat_eq (heq.trans BitVec.toNat_zero.symm))
      have hle : (members bits b.capacity.toNat).card ≤ b.capacity.toNat :=
        (Finset.card_filter_le _ _).trans_eq (Finset.card_range _)
      rw [if_neg hzero, foldl_add_ofNat, ← BitVec.ofNat_add, ← Finset.sum_range_succ,
        Nat.sub_one_add_one hpos, BitVec.toNat_ofNat, ← hcard,
        Nat.mod_eq_of_lt (hle.trans_lt b.capacity.isLt)]

/-- `equal`. -/
theorem Inv.equal_eq (h : b.Inv) (hother : other.Inv) :
    b.equal other = IndexSet.equal b.toSet other.toSet := by
  unfold Bitset.equal
  cases hsome : b.storage with
  | none =>
    rw [toSet_of_none hsome]
    rfl
  | some bits =>
    cases hsome' : other.storage with
    | none =>
      rw [toSet_of_none hsome']
      cases b.toSet <;> rfl
    | some otherBits =>
      rw [toSet_of_some hsome, toSet_of_some hsome']
      simp only [IndexSet.equal]
      rw [Bool.eq_iff_iff, Bool.and_eq_true, decide_eq_true_eq, decide_eq_true_eq,
        decide_eq_true_eq, ← BitVec.toNat_inj]
      refine and_congr_right fun hcap => ?_
      have hbytes : b.storageBytes.toNat = other.storageBytes.toNat := by
        rw [h.bytes_eq hsome, hother.bytes_eq hsome', hcap]
      rw [forall_bytes_iff]
      constructor
      · intro htest
        rw [← h.members_bytes hsome, ← hother.members_bytes hsome', ← hbytes]
        ext j
        rw [mem_members, mem_members]
        exact and_congr_right fun hj => by rw [htest j hj]
      · intro hmem j hj
        rw [Bool.eq_iff_iff, h.test_iff hsome hj, hother.test_iff hsome' (hbytes ▸ hj), hmem]

/-- The stored bytes are those of the set. -/
theorem Inv.bits_eq (h : b.Inv) (hsome : b.storage = some bits) :
    ∀ i < b.storageBytes.toNat,
      bits i = encode (fun j => decide (j ∈ members bits b.capacity.toNat)) i := by
  rw [forall_bytes_iff]
  intro j hj
  rw [test_encode, Bool.eq_iff_iff, decide_eq_true_eq]
  exact h.test_iff hsome hj

/-- `store_bytes`. -/
theorem Inv.storeBytes_eq (h : b.Inv) (bytes : Option (List (BitVec 8))) :
    b.storeBytes bytes = IndexSet.store b.toSet bytes := by
  unfold Bitset.storeBytes
  cases hsome : b.storage with
  | none =>
    rw [toSet_of_none hsome]
    rfl
  | some bits =>
    rw [toSet_of_some hsome]
    cases bytes with
    | none => rfl
    | some bytes =>
      have hmap : (List.range b.storageBytes.toNat).map bits =
          (List.range b.storageBytes.toNat).map
            (encode fun j => decide (j ∈ members bits b.capacity.toNat)) :=
        List.map_congr_left fun i hi => h.bits_eq hsome i (List.mem_range.mp hi)
      simp only [IndexSet.store, ← h.bytes_eq hsome]
      rw [hmap]

/-- The first hit of a search upwards is the least one. -/
theorem find_range'_eq_min (p : ℕ → Prop) [DecidablePred p] (start n : ℕ) :
    ((List.range' start n).find? fun i => decide (p i)) =
      ((Finset.Ico start (start + n)).filter p).min := by
  induction n generalizing start with
  | zero =>
    rw [Nat.add_zero, Finset.Ico_self]
    rfl
  | succ n ih =>
    have hico : Finset.Ico start (start + (n + 1)) =
        insert start (Finset.Ico (start + 1) (start + 1 + n)) := by
      ext i
      rw [Finset.mem_insert, Finset.mem_Ico, Finset.mem_Ico]
      omega
    rw [List.range'_succ, List.find?_cons, hico, Finset.filter_insert]
    by_cases hp : p start
    · rw [if_pos hp, decide_eq_true hp, Finset.min_insert, min_eq_left]
      · rfl
      · refine Finset.le_min fun i hi => ?_
        rw [Finset.mem_filter, Finset.mem_Ico] at hi
        exact WithTop.coe_le_coe.mpr (by omega)
    · rw [if_neg hp, decide_eq_false hp]
      exact ih (start + 1)

/-- `find_first_set` and `find_first_clear`. -/
theorem findFrom_eq (b : Bitset w) (startIndex : ℕ) (wantSet : Bool) (out : ℕ) :
    b.findFrom startIndex wantSet out = IndexSet.least b.toSet startIndex wantSet out := by
  unfold findFrom
  cases hsome : b.storage with
  | none =>
    rw [toSet_of_none hsome]
    rfl
  | some bits =>
    rw [toSet_of_some hsome]
    simp only [IndexSet.least, Option.isNone_some, Bool.false_eq_true, if_false]
    by_cases hle : b.capacity.toNat ≤ startIndex
    · rw [if_pos hle, Finset.Ico_eq_empty_of_le hle]
      rfl
    · have hmem : ∀ index, b.test index = decide (index ∈ members bits b.capacity.toNat) := by
        intro index
        rw [test_eq_mem, toSet_of_some hsome, Option.any_some]
      rw [if_neg hle]
      simp only [hmem]
      rw [find_range'_eq_min, Nat.add_sub_cancel' (not_le.mp hle).le]
      rfl

/-- `for_each`. -/
theorem forEach_eq (b : Bitset w) (visit : ℕ → Status) :
    b.forEach visit = IndexSet.visit b.toSet visit := by
  unfold forEach
  cases hsome : b.storage with
  | none =>
    rw [toSet_of_none hsome]
    rfl
  | some bits =>
    have hmem : ∀ index, b.test index = decide (index ∈ members bits b.capacity.toNat) := by
      intro index
      rw [test_eq_mem, toSet_of_some hsome, Option.any_some]
    rw [toSet_of_some hsome]
    simp only [IndexSet.visit, Option.isNone_some, Bool.false_eq_true, if_false]
    generalize List.range b.capacity.toNat = indexes
    induction indexes with
    | nil => rfl
    | cons index indexes ih =>
      rw [forEachLoop, hmem index, List.filter_cons]
      by_cases hin : index ∈ members bits b.capacity.toNat
      · rw [decide_eq_true hin, if_pos rfl, if_pos rfl, IndexSet.visitAll, ih]
      · rw [decide_eq_false hin, if_neg Bool.false_ne_true, if_neg Bool.false_ne_true, ih]

/-! ## Runs -/

/-- The bit sets stand for the sets. -/
def Refines (s : ι → Bitset w) (m : ι → Option IndexSet) : Prop :=
  ∀ i, (s i).Inv ∧ (s i).toSet = m i

/-- **An operation** answers like the reference, and keeps the last byte masked. -/
theorem run_eq {s : ι → Bitset w} {m : ι → Option IndexSet} (h : Refines s m) (hb : b.Inv)
    (op : Op ι) :
    (run s b op).1 = (IndexSet.run m b.toSet op).1 ∧
      (run s b op).2.toSet = (IndexSet.run m b.toSet op).2 ∧ (run s b op).2.Inv := by
  have hreply : ∀ {st st' : Status} {t : Option IndexSet} {r : Bitset w},
      st = st' ∧ r.toSet = t ∧ r.Inv → Reply.status st = .status st' ∧ r.toSet = t ∧ r.Inv := by
    rintro st st' t r ⟨rfl, hrest⟩
    exact ⟨rfl, hrest⟩
  cases op with
  | set index => exact hreply (hb.set index)
  | reset index => exact hreply (hb.reset index)
  | toggle index => exact hreply (hb.toggle index)
  | assign value index => exact hreply (hb.assign value index)
  | setAll => exact hreply hb.setAll
  | clear => exact ⟨rfl, hb.clear⟩
  | complement => exact hreply hb.complement
  | unionWith other =>
    -- the four binary operations run one loop over the bytes, with their own function of two bits
    have hunion := hb.combine (s other) (p := Or)
      (fun x y k _ => by rw [BitVec.getLsbD_or, Bool.or_eq_true]) fun _ _ _ => Finset.mem_union
    rw [(h other).2] at hunion
    exact hreply hunion
  | intersectWith other =>
    have hinter := hb.combine (s other) (p := And)
      (fun x y k _ => by rw [BitVec.getLsbD_and, Bool.and_eq_true]) fun _ _ _ => Finset.mem_inter
    rw [(h other).2] at hinter
    exact hreply hinter
  | xorWith other =>
    have hbit : ∀ x y : BitVec 8, ∀ k < 8, (x ^^^ y).getLsbD k = true ↔
        x.getLsbD k = true ∧ ¬ y.getLsbD k = true ∨ y.getLsbD k = true ∧ ¬ x.getLsbD k = true := by
      intro x y k _
      rw [BitVec.getLsbD_xor]
      cases x.getLsbD k <;> cases y.getLsbD k <;> decide
    have hxor := hb.combine (s other) (p := fun x y => x ∧ ¬ y ∨ y ∧ ¬ x) hbit
      fun _ _ _ => Finset.mem_symmDiff
    rw [(h other).2] at hxor
    exact hreply hxor
  | copyFrom src =>
    have hcopy := hb.combine (s src) (p := fun _ q => q) (f := fun _ byte => byte)
      (g := fun _ t => t) (fun _ _ _ _ => Iff.rfl) fun _ _ _ => Iff.rfl
    rw [(h src).2] at hcopy
    exact hreply hcopy
  | loadBytes bytes => exact hreply (hb.loadBytes bytes)
  | test index => exact ⟨congrArg Reply.test (test_eq_mem b index), rfl, hb⟩
  | size => exact ⟨congrArg Reply.count hb.size_eq, rfl, hb⟩
  | equal other =>
    refine ⟨congrArg Reply.test ?_, rfl, hb⟩
    rw [← (h other).2]
    exact hb.equal_eq (h other).1
  | findFirstSet startIndex out =>
    refine ⟨?_, rfl, hb⟩
    rw [run, IndexSet.run, findFrom_eq]
  | findFirstClear startIndex out =>
    refine ⟨?_, rfl, hb⟩
    rw [run, IndexSet.run, findFrom_eq]
  | forEach visit =>
    refine ⟨?_, rfl, hb⟩
    rw [run, IndexSet.run, forEach_eq]
  | storeBytes bytes =>
    refine ⟨?_, rfl, hb⟩
    rw [run, IndexSet.run, hb.storeBytes_eq]

/-- **A call** answers like the reference and keeps the bit sets refining it. -/
theorem Refines.call_eq [DecidableEq ι] {s : ι → Bitset w} {m : ι → Option IndexSet}
    (h : Refines s m) (c : ι × Op ι) :
    (call s c).1 = (IndexSet.call m c).1 ∧ Refines (call s c).2 (IndexSet.call m c).2 := by
  obtain ⟨i, op⟩ := c
  obtain ⟨hreply, hset, hinv⟩ := run_eq h (h i).1 op
  rw [(h i).2] at hreply hset
  refine ⟨hreply, fun j => ?_⟩
  show (Function.update s i (run s (s i) op).2 j).Inv ∧
    (Function.update s i (run s (s i) op).2 j).toSet =
      Function.update m i (IndexSet.run m (m i) op).2 j
  by_cases hj : j = i
  · rw [hj, Function.update_self, Function.update_self]
    exact ⟨hinv, hset⟩
  · rw [Function.update_of_ne hj, Function.update_of_ne hj]
    exact h j

/-- The number of bytes of a capacity that does not wrap. -/
theorem toNat_bytesFor {capacity : BitVec w} (hne : capacity ≠ 0)
    (hfits : capacity.toNat + 7 < 2 ^ w) :
    (bytesFor capacity).toNat = (capacity.toNat + 7) / 8 := by
  have hpos : capacity.toNat ≠ 0 := fun hzero =>
    hne (BitVec.eq_of_toNat_eq (hzero.trans BitVec.toNat_zero.symm))
  have hseven : (7 : BitVec w).toNat = 7 := (BitVec.toNat_ofNat 7 w).trans
    (Nat.mod_eq_of_lt (by omega))
  have height : (8 : BitVec w).toNat = 8 := (BitVec.toNat_ofNat 8 w).trans
    (Nat.mod_eq_of_lt (by omega))
  rw [bytesFor, BitVec.toNat_udiv, BitVec.toNat_add, hseven, height, Nat.mod_eq_of_lt hfits]

/-- After `init` no bit is set. -/
theorem refines_start (config : ι → Option (Config w))
    (hfits : ∀ i, ∀ cfg ∈ config i, cfg.capacity.toNat + 7 < 2 ^ w) :
    Refines (start config) (IndexSet.start config) := by
  intro i
  have hsmall := hfits i
  unfold start IndexSet.start
  cases hcfg : config i with
  | none => exact ⟨⟨nofun, nofun⟩, rfl⟩
  | some cfg =>
    have hbytes := toNat_bytesFor cfg.capacity_ne (hsmall cfg hcfg)
    have hzero : ∀ j, ByteBits.test (fun _ => 0) j = false := by
      intro j
      rw [test_eq]
      exact BitVec.getLsbD_zero
    simp only [init, if_neg cfg.capacity_ne, Option.map_some]
    refine ⟨⟨fun _ => hbytes, ?_⟩, ?_⟩
    · intro bits hbits j _ hj
      obtain rfl := Option.some.inj hbits
      exact (test_overwrite hj).trans (hzero j)
    · rw [toSet_of_some rfl]
      congr 1
      ext j
      · rfl
      · rw [IndexSet.members_cut, Finset.mem_filter, mem_members]
        refine iff_of_false (fun hmem => ?_) fun hmem => absurd hmem.1 (Finset.notMem_empty j)
        have hlt : j < 8 * (bytesFor cfg.capacity).toNat := by
          have hj : j < cfg.capacity.toNat := hmem.1
          rw [hbytes]
          omega
        have htest := (test_overwrite hlt).symm.trans hmem.2
        rw [hzero] at htest
        exact absurd htest Bool.false_ne_true

/-- A rejected operation changes nothing. -/
theorem run_of_rejected {s : ι → Bitset w} {op : Op ι} {st : Status}
    (hst : (run s b op).1 = .status st) (hne : st ≠ .ok) : (run s b op).2 = b := by
  -- every test stands before the first write
  have hchange : ∀ index f, (b.change index f).1 ≠ .ok → (b.change index f).2 = b := by
    intro index f
    unfold Bitset.change
    split
    · exact fun _ => rfl
    · split
      · exact fun _ => rfl
      · exact fun hnot => absurd rfl hnot
  have hcombine : ∀ other f, (b.combineWith other f).1 ≠ .ok → (b.combineWith other f).2 = b := by
    intro other f
    unfold combineWith
    split
    · split
      · exact fun _ => rfl
      · exact fun hnot => absurd rfl hnot
    · exact fun _ => rfl
  have hreply : ∀ {r : Status × Bitset w}, Reply.status r.1 = .status st → r.1 ≠ .ok := by
    intro r h
    rw [Reply.status.inj h]
    exact hne
  cases op with
  | set index => exact hchange _ _ (hreply hst)
  | reset index => exact hchange _ _ (hreply hst)
  | toggle index => exact hchange _ _ (hreply hst)
  | assign value index =>
    cases value with
    | true => exact hchange _ _ (hreply hst)
    | false => exact hchange _ _ (hreply hst)
  | setAll =>
    have hnot := hreply (r := b.setAll) hst
    show b.setAll.2 = b
    unfold Bitset.setAll at hnot ⊢
    split at hnot
    · rfl
    · exact absurd rfl hnot
  | complement =>
    have hnot := hreply (r := b.complement) hst
    show b.complement.2 = b
    unfold Bitset.complement at hnot ⊢
    split at hnot
    · rfl
    · exact absurd rfl hnot
  | unionWith other => exact hcombine _ _ (hreply hst)
  | intersectWith other => exact hcombine _ _ (hreply hst)
  | xorWith other => exact hcombine _ _ (hreply hst)
  | copyFrom src => exact hcombine _ _ (hreply hst)
  | loadBytes bytes =>
    have hnot := hreply (r := b.loadBytes bytes) hst
    show (b.loadBytes bytes).2 = b
    unfold Bitset.loadBytes at hnot ⊢
    split at hnot
    · split at hnot
      · rename_i hlen
        exact congrArg Prod.snd (if_pos hlen)
      · exact absurd rfl hnot
    · rfl
  -- the other operations answer with no status
  | clear => cases hst
  | test index => cases hst
  | size => cases hst
  | equal other => cases hst
  | findFirstSet startIndex out => cases hst
  | findFirstClear startIndex out => cases hst
  | forEach visit => cases hst
  | storeBytes bytes => cases hst

/-- **The round trip** of the bytes. -/
theorem Inv.load_store (h : b.Inv) (hother : other.Inv) (hsome : b.storage.isSome)
    (hsome' : other.storage.isSome) (hcap : other.capacity = b.capacity)
    {bytes : List (BitVec 8)} (hlen : b.storageBytes.toNat ≤ bytes.length) :
    (b.storeBytes (some bytes)).1 = .ok ∧
      (other.loadBytes (b.storeBytes (some bytes)).2).1 = .ok ∧
      (other.loadBytes (b.storeBytes (some bytes)).2).2.toSet = b.toSet := by
  obtain ⟨bits, hbits⟩ := Option.isSome_iff_exists.mp hsome
  obtain ⟨otherBits, hother'⟩ := Option.isSome_iff_exists.mp hsome'
  have hn : other.storageBytes.toNat = b.storageBytes.toNat := by
    rw [h.bytes_eq hbits, hother.bytes_eq hother', hcap]
  unfold Bitset.storeBytes Bitset.loadBytes
  rw [hbits, hother']
  simp only [if_neg (not_lt.mpr hlen)]
  generalize hout : (List.range b.storageBytes.toNat).map bits ++
    bytes.drop b.storageBytes.toNat = out
  have hlen' : ¬ out.length < other.storageBytes.toNat := by
    rw [← hout, List.length_append, List.length_map, List.length_range, hn]
    omega
  rw [if_neg hlen', toSet_of_some hbits]
  refine ⟨trivial, rfl, (hother.rewrite_cut hother' (t := members bits b.capacity.toNat)
    fun j hj => ?_).1.trans ?_⟩
  · rw [hcap] at hj
    have hj' := hj.trans_le (h.capacity_le hbits)
    have hget : out.getD (j / 8) 0 = bits (j / 8) := by
      have hlt : j / 8 < ((List.range b.storageBytes.toNat).map bits).length := by
        rw [List.length_map, List.length_range]
        omega
      rw [← hout, List.getD_eq_getElem?_getD, List.getElem?_append_left hlt,
        List.getElem?_eq_getElem hlt, List.getElem_map, List.getElem_range, Option.getD_some]
    rw [ByteBits.test_eq, hget, ← ByteBits.test_eq]
    exact h.test_iff hbits hj'
  · congr 1
    rw [hcap]
    ext j
    · rfl
    · rw [IndexSet.members_cut, Finset.mem_filter]
      exact and_iff_left_of_imp fun hj => (mem_members.mp hj).1

/-- What holds of the bit sets in the states that calls reach. -/
structure SetLaw (s : ι → Bitset w) (m : ι → Option IndexSet) : Prop where
  sets : ∀ i, (s i).toSet = m i
  /-- The bits beyond the capacity are zero. -/
  zero : ∀ i, ∀ bits ∈ (s i).storage, ∀ j, (s i).capacity.toNat ≤ j →
    j < 8 * (s i).storageBytes.toNat → ByteBits.test bits j = false
  rejected : ∀ i op st, (run s (s i) op).1 = .status st → st ≠ .ok → (run s (s i) op).2 = s i
  /-- Loading what was stored restores the set. -/
  load_store : ∀ i j (bytes : List (BitVec 8)), (s i).storage.isSome → (s j).storage.isSome →
    (s j).capacity = (s i).capacity → (s i).storageBytes.toNat ≤ bytes.length →
    ((s i).storeBytes (some bytes)).1 = .ok ∧
      ((s j).loadBytes ((s i).storeBytes (some bytes)).2).1 = .ok ∧
      ((s j).loadBytes ((s i).storeBytes (some bytes)).2).2.toSet = (s i).toSet

theorem Refines.setLaw {s : ι → Bitset w} {m : ι → Option IndexSet} (h : Refines s m) :
    SetLaw s m where
  sets i := (h i).2
  zero i := (h i).1.zero
  rejected _ _ _ := run_of_rejected
  load_store i j _ hi hj hcap hlen := (h i).1.load_store (h j).1 hi hj hcap hlen

/-- The number of bytes of a capacity that wraps. -/
theorem bytesFor_eq_zero {capacity : BitVec w} (hwraps : ¬ capacity.toNat + 7 < 2 ^ w) :
    bytesFor capacity = 0 := by
  apply BitVec.eq_of_toNat_eq
  have hlt := capacity.isLt
  have hseven : (7 : BitVec w).toNat = 7 % 2 ^ w := BitVec.toNat_ofNat 7 w
  have height : (8 : BitVec w).toNat = 8 % 2 ^ w := BitVec.toNat_ofNat 8 w
  rw [bytesFor, BitVec.toNat_udiv, BitVec.toNat_add, hseven, height,
    show (0 : BitVec w).toNat = 0 from BitVec.toNat_zero]
  rcases Nat.lt_or_ge 3 w with hw | hw
  · have hpow : 2 ^ 4 ≤ 2 ^ w := Nat.pow_le_pow_right (by norm_num) hw
    rw [Nat.mod_eq_of_lt (show 7 < 2 ^ w by omega), Nat.mod_eq_of_lt (show 8 < 2 ^ w by omega),
      Nat.mod_eq_sub_mod (by omega), Nat.mod_eq_of_lt (by omega)]
    exact Nat.div_eq_of_lt (by omega)
  · -- the divisor itself does not fit the word
    have height : 8 % 2 ^ w = 0 := by interval_cases w <;> rfl
    rw [height, Nat.div_zero]

/-- **Bit sets are sets.** For every family of bit sets, initialised over any memory with any
positive capacity or not at all: every sequence of calls is answered like the reference, leaves the
sets of the reference behind with the bits beyond the capacity zero, and so on, exactly if no
capacity is so large that the number of its bytes wraps. -/
theorem refines_sets_iff [DecidableEq ι] (config : ι → Option (Config w)) :
    (∀ calls, outputs call (start config) calls =
          outputs IndexSet.call (IndexSet.start config) calls ∧
        SetLaw (final call (start config) calls)
          (final IndexSet.call (IndexSet.start config) calls)) ↔
      ∀ i, ∀ cfg ∈ config i, cfg.capacity.toNat + 7 < 2 ^ w := by
  constructor
  · intro hlaw i cfg hcfg
    by_contra hwraps
    have houts := (hlaw [(i, .set 0), (i, .size)]).1
    have hpos : ¬ cfg.capacity.toNat ≤ 0 := fun hzero =>
      cfg.capacity_ne (BitVec.eq_of_toNat_eq ((Nat.le_zero.mp hzero).trans BitVec.toNat_zero.symm))
    have hstart : start config i = clear ⟨some cfg.memory, cfg.capacity, 0⟩ := by
      rw [start, hcfg]
      simp only [init, if_neg cfg.capacity_ne, bytesFor_eq_zero hwraps]
    have hstart' : IndexSet.start config i = some (IndexSet.cut cfg.capacity.toNat ∅) := by
      rw [IndexSet.start, hcfg, Option.map_some]
    -- the code counts no byte, the reference counts the index that was set
    simp only [outputs_cons, outputs_nil, call, IndexSet.call, run, IndexSet.run, answer,
      Function.update_self, hstart, hstart', clear, Bitset.set, Bitset.change, IndexSet.change,
      Option.map_some, IndexSet.bound_cut, if_neg hpos, size, if_true, Option.elim_some,
      IndexSet.members_cut, Finset.filter_empty] at houts
    have hcount := Reply.count.inj (List.cons.inj (List.cons.inj houts).2).1
    have hmem : 0 ∈ (insert 0 ∅ : Finset ℕ).filter (· < cfg.capacity.toNat) :=
      Finset.mem_filter.mpr ⟨Finset.mem_insert_self 0 ∅, not_le.mp hpos⟩
    have hcard := Finset.card_pos.mpr ⟨0, hmem⟩
    rw [← hcount, show (0 : BitVec w).toNat = 0 from BitVec.toNat_zero] at hcard
    exact Nat.lt_irrefl 0 hcard
  · intro hfits calls
    obtain ⟨houts, hfinal⟩ := simulation Refines (fun _ _ c h _ => h.call_eq c)
      (everyCall_true _ calls) (refines_start config hfits)
    exact ⟨houts, hfinal.setLaw⟩

/-- One bit set whose capacity is the greatest word of 64 bits. -/
def largest : Unit → Option (Config 64) := fun _ => some ⟨fun _ => 0, BitVec.allOnes 64, by decide⟩

/-- Its storage is taken to have no bytes: a number is set, and the set has no members. -/
theorem not_refines_sets_largest :
    ¬ (outputs call (start largest) [((), .set 0), ((), .size)] =
      outputs IndexSet.call (IndexSet.start largest) [((), .set 0), ((), .size)]) := by
  decide +kernel

/-- Two bit sets of ten numbers: the complement of one is united with the other, stored and
loaded. -/
example :
    let s := start fun _ : Bool => some (⟨fun _ => 0xFF, 10, by decide⟩ : Config 64)
    outputs call s [(true, .set 9), (false, .set 2), (true, .unionWith false), (true, .complement),
      (true, .size), (true, .findFirstClear 3 0), (true, .storeBytes (some [0, 0, 7]))] =
      [.status .ok, .status .ok, .status .ok, .status .ok, .count 8, .found .ok 9,
        .bytes .ok (some [0xFB, 0x01, 7])] := by
  decide +kernel

end Bitset

end Memkit
