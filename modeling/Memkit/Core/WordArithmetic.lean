import Memkit.Foundations.WrapCounter

/-! # Overflow tests and alignment

`add_would_overflow`, `mul_would_overflow` and the rounding up to an alignment, as `align_up` and the
allocators compute them on `size_t` and `uintptr_t`. -/

namespace Memkit

variable {w : ℕ}

/-- `add_would_overflow`: `b > SIZE_MAX - a`. -/
def addWouldOverflow (a b : BitVec w) : Bool := decide (BitVec.allOnes w - a < b)

/-- `mul_would_overflow`: `a != 0 && b > SIZE_MAX / a`. -/
def mulWouldOverflow (a b : BitVec w) : Bool := decide (a ≠ 0) && decide (BitVec.allOnes w / a < b)

/-- Rounding up: `(value + alignment - 1) & ~(alignment - 1)`. -/
def roundUp (value alignment : BitVec w) : BitVec w :=
  (value + alignment - 1) &&& ~~~(alignment - 1)

/-- `align_up`: `(value + mask) & ~mask`. -/
def alignUp (value alignment : BitVec w) : BitVec w :=
  let mask := alignment - 1
  (value + mask) &&& ~~~mask

theorem alignUp_eq (value alignment : BitVec w) :
    alignUp value alignment = roundUp value alignment := by
  unfold alignUp roundUp
  rw [BitVec.sub_eq_add_neg, BitVec.sub_eq_add_neg, BitVec.add_assoc]

/-- The test is exact. -/
theorem addWouldOverflow_eq_false (a b : BitVec w) :
    addWouldOverflow a b = false ↔ a.toNat + b.toNat < 2 ^ w := by
  have ha := a.isLt
  have hle : a ≤ BitVec.allOnes w := by
    rw [BitVec.le_def, BitVec.toNat_allOnes]
    omega
  rw [addWouldOverflow, decide_eq_false_iff_not, BitVec.not_lt, BitVec.le_def,
    BitVec.toNat_sub_of_le hle, BitVec.toNat_allOnes]
  omega

/-- An addition that passes the test is exact. -/
theorem toNat_add_of_not_overflow {a b : BitVec w} (h : addWouldOverflow a b = false) :
    (a + b).toNat = a.toNat + b.toNat := by
  rw [BitVec.toNat_add, Nat.mod_eq_of_lt ((addWouldOverflow_eq_false a b).mp h)]

/-- A multiplication that passes the test is exact. -/
theorem toNat_mul_of_not_overflow {a b : BitVec w} (h : mulWouldOverflow a b = false) :
    (a * b).toNat = a.toNat * b.toNat := by
  have hlt : a.toNat * b.toNat < 2 ^ w := by
    by_cases ha : a = 0
    · rw [ha]
      simp
    · simp only [mulWouldOverflow, ha, ne_eq, not_false_eq_true, decide_true, Bool.true_and,
        decide_eq_false_iff_not, BitVec.not_lt, BitVec.le_def, BitVec.toNat_udiv,
        BitVec.toNat_allOnes] at h
      have hpos : 0 < 2 ^ w := Nat.two_pow_pos w
      have hmul : a.toNat * b.toNat ≤ 2 ^ w - 1 :=
        (Nat.mul_le_mul_left _ h).trans (Nat.mul_div_le _ _)
      omega
  rw [BitVec.toNat_mul, Nat.mod_eq_of_lt hlt]

/-- Clearing the low bits rounds down. -/
theorem toNat_and_not_mask {k : ℕ} {mask x : BitVec w} (hk : k ≤ w)
    (hmask : mask.toNat = 2 ^ k - 1) : (x &&& ~~~mask).toNat = x.toNat - x.toNat % 2 ^ k := by
  have hlow : (x &&& mask).toNat = x.toNat % 2 ^ k := by
    have h := WrapCounter.toNat_and_mask hk hmask x.toNat
    rwa [BitVec.ofNat_toNat, BitVec.setWidth_eq] at h
  have hdisjoint : (x &&& mask) &&& (x &&& ~~~mask) = 0 := by
    ext i hi
    simp
    cases x[i] <;> simp
  have hsplit : (x &&& mask) + (x &&& ~~~mask) = x := by
    rw [BitVec.add_eq_or_of_and_eq_zero _ _ hdisjoint]
    ext i hi
    simp
    cases x[i] <;> cases mask[i] <;> simp
  have hhigh : x &&& ~~~mask = x - (x &&& mask) := by
    rw [BitVec.eq_sub_iff_add_eq, BitVec.add_comm]
    exact hsplit
  have hle : x &&& mask ≤ x := by
    rw [BitVec.le_def, hlow]
    exact Nat.mod_le _ _
  rw [hhigh, BitVec.toNat_sub_of_le hle, hlow]

/-- An alignment that passes the tests of the allocators is a power of two. -/
theorem exists_alignment {alignment : BitVec w} (hne : alignment ≠ 0)
    (hpow : alignment &&& (alignment - 1) = 0) :
    ∃ k < w, alignment.toNat = 2 ^ k ∧ (alignment - 1).toNat = 2 ^ k - 1 := by
  obtain ⟨k, hk, hval⟩ := (WrapCounter.and_sub_one_eq_zero_iff hne).mp hpow
  refine ⟨k, hk, hval, ?_⟩
  have hpred := WrapCounter.toNat_pred hne
  omega

/-- **Rounding up** gives an aligned value, which is not below the given one unless it wraps to
zero. -/
theorem roundUp_spec {value alignment : BitVec w} (hne : alignment ≠ 0)
    (hpow : alignment &&& (alignment - 1) = 0) :
    (roundUp value alignment).toNat % alignment.toNat = 0 ∧
      (value.toNat ≤ (roundUp value alignment).toNat ∨ roundUp value alignment = 0) := by
  obtain ⟨k, hk, hval, hmask⟩ := exists_alignment hne hpow
  have hround : (roundUp value alignment).toNat =
      (value + alignment - 1).toNat - (value + alignment - 1).toNat % 2 ^ k :=
    toNat_and_not_mask hk.le hmask
  have hpos : 0 < 2 ^ k := Nat.two_pow_pos k
  have hpowlt : 2 ^ k < 2 ^ w := Nat.pow_lt_pow_right (by norm_num) hk
  have hvalue := value.isLt
  -- the sum before the mask is applied, with the wrap made explicit
  have hsum : (value + alignment - 1).toNat = (value.toNat + (2 ^ k - 1)) % 2 ^ w := by
    rw [BitVec.sub_eq_add_neg, BitVec.add_assoc, ← BitVec.sub_eq_add_neg, BitVec.toNat_add, hmask]
  refine ⟨?_, ?_⟩
  · rw [hround, hval, ← Nat.dvd_iff_mod_eq_zero]
    exact Nat.dvd_sub_mod _
  · by_cases hwrap : value.toNat + (2 ^ k - 1) < 2 ^ w
    · left
      rw [hround, hsum, Nat.mod_eq_of_lt hwrap]
      have hlt := Nat.mod_lt (value.toNat + (2 ^ k - 1)) hpos
      omega
    · right
      have hsmall : (value + alignment - 1).toNat < 2 ^ k := by
        rw [hsum, Nat.mod_eq_sub_mod (by omega), Nat.mod_eq_of_lt (by omega)]
        omega
      apply BitVec.eq_of_toNat_eq
      rw [hround, Nat.mod_eq_of_lt hsmall]
      simp

/-- The mask of an alignment. -/
theorem toNat_mask {alignment : BitVec w} {k : ℕ} (hval : alignment.toNat = 2 ^ k) :
    (alignment - 1).toNat = 2 ^ k - 1 := by
  have hpos : 0 < 2 ^ k := Nat.two_pow_pos k
  have hne : alignment ≠ 0 := by
    intro hzero
    rw [hzero] at hval
    simp at hval
    omega
  have hpred := WrapCounter.toNat_pred hne
  omega

/-- Rounding up in numbers, where the sum does not wrap. -/
theorem toNat_roundUp {value alignment : BitVec w} {k : ℕ} (hk : k < w)
    (hval : alignment.toNat = 2 ^ k) (h : value.toNat + (2 ^ k - 1) < 2 ^ w) :
    (roundUp value alignment).toNat = (value.toNat + (2 ^ k - 1)) / 2 ^ k * 2 ^ k := by
  have hpos : 0 < 2 ^ k := Nat.two_pow_pos k
  have hmask := toNat_mask hval
  have hsum : (value + alignment - 1).toNat = value.toNat + (2 ^ k - 1) := by
    rw [BitVec.sub_eq_add_neg, BitVec.add_assoc, ← BitVec.sub_eq_add_neg, BitVec.toNat_add, hmask,
      Nat.mod_eq_of_lt h]
  rw [roundUp, toNat_and_not_mask hk.le hmask, hsum, Nat.div_mul_self_eq_mod_sub_self]

/-- A sum that wraps is rounded to zero. -/
theorem roundUp_of_wrap {value alignment : BitVec w} {k : ℕ} (hk : k < w)
    (hval : alignment.toNat = 2 ^ k) (h : 2 ^ w ≤ value.toNat + (2 ^ k - 1)) :
    roundUp value alignment = 0 := by
  have hpos : 0 < 2 ^ k := Nat.two_pow_pos k
  have hpowlt : 2 ^ k < 2 ^ w := Nat.pow_lt_pow_right (by norm_num) hk
  have hvalue := value.isLt
  have hmask := toNat_mask hval
  have hsmall : (value + alignment - 1).toNat < 2 ^ k := by
    rw [BitVec.sub_eq_add_neg, BitVec.add_assoc, ← BitVec.sub_eq_add_neg, BitVec.toNat_add, hmask,
      Nat.mod_eq_sub_mod h, Nat.mod_eq_of_lt (by omega)]
    omega
  apply BitVec.eq_of_toNat_eq
  rw [roundUp, toNat_and_not_mask hk.le hmask, Nat.mod_eq_of_lt hsmall]
  simp

/-- The lowest bit of a word is the largest power of two that divides it. -/
theorem exists_lowest_bit {n : BitVec w} (hn : n ≠ 0) :
    ∃ t < w, (n &&& (~~~n + 1)).toNat = 2 ^ t ∧ ∀ k, 2 ^ k ∣ n.toNat ↔ k ≤ t := by
  have hset : ∃ i, n.getLsbD i = true := by
    by_contra hnone
    push Not at hnone
    apply hn
    apply BitVec.eq_of_getLsbD_eq
    intro i _
    simpa using hnone i
  classical
  -- the lowest bit that is set
  obtain ⟨t, ht, hleast⟩ : ∃ t, n.getLsbD t = true ∧ ∀ j < t, n.getLsbD j = false :=
    ⟨Nat.find hset, Nat.find_spec hset, fun j hj => by simpa using Nat.find_min hset hj⟩
  have hlt : t < w := BitVec.lt_of_getLsbD ht
  have hneg : ~~~n + 1 = -n := (BitVec.neg_eq_not_add n).symm
  have hbit : n &&& (~~~n + 1) = BitVec.twoPow w t := by
    apply BitVec.eq_of_getLsbD_eq
    intro i hi
    rw [hneg, BitVec.getLsbD_and, BitVec.getLsbD_neg, BitVec.getLsbD_twoPow]
    -- the negation keeps the bits up to the lowest one and flips those above
    rcases Nat.lt_trichotomy i t with hbelow | rfl | habove
    · simp [hleast i hbelow, hbelow.ne']
    · have hnone : ¬ ∃ j < i, n.getLsbD j = true := by
        rintro ⟨j, hj, hset⟩
        rw [hleast j hj] at hset
        cases hset
      simp [ht, hnone, hlt]
    · have hsome : ∃ j < i, n.getLsbD j = true := ⟨t, habove, ht⟩
      simp [hsome, hi, habove.ne]
  refine ⟨t, hlt, ?_, fun k => ⟨fun hdvd => ?_, fun hk => ?_⟩⟩
  · rw [hbit, BitVec.toNat_twoPow, Nat.mod_eq_of_lt (Nat.pow_lt_pow_right one_lt_two hlt)]
  · by_contra hgt
    rw [not_le] at hgt
    obtain ⟨m, hm⟩ := (pow_dvd_pow 2 hgt).trans hdvd
    -- the word shifted down to the bit is odd
    have hodd : n.toNat / 2 ^ t % 2 = 1 := by
      have h : n.toNat.testBit t = true := ht
      simpa [Nat.testBit_eq_decide_div_mod_eq] using h
    rw [hm, pow_succ, Nat.mul_assoc, Nat.mul_div_cancel_left _ (Nat.two_pow_pos t),
      Nat.mul_mod_right] at hodd
    cases hodd
  · apply (pow_dvd_pow 2 hk).trans
    apply Nat.dvd_of_mod_eq_zero
    apply Nat.eq_of_testBit_eq
    intro i
    rw [Nat.testBit_mod_two_pow, Nat.zero_testBit]
    by_cases hi : i < t
    · have h : n.toNat.testBit i = false := hleast i hi
      rw [h, Bool.and_false]
    · simp [hi]
end Memkit
