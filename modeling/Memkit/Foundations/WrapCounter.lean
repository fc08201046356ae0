import Mathlib.Tactic

/-! # Free-running counters in machine words

A counter that only ever grows is kept in a `w`-bit word and wraps. The word is `BitVec.ofNat w n`
for the exact count `n`; the lemmas below say what differences, equalities and power-of-two masks
of such words mean for the exact counts, as long as the counts compared lie less than `2 ^ w`
apart. -/

namespace WrapCounter

variable {w : ℕ}

/-- Incrementing the word increments the count. -/
theorem ofNat_succ (n : ℕ) : BitVec.ofNat w n + 1 = BitVec.ofNat w (n + 1) := by
  rw [BitVec.ofNat_add]
  rfl

/-- Incrementing a word below another word does not wrap. -/
theorem toNat_succ {v c : BitVec w} (hv : v.toNat < c.toNat) : (v + 1).toNat = v.toNat + 1 := by
  have hlt := c.isLt
  have hword : v + 1 = BitVec.ofNat w (v.toNat + 1) := by
    rw [← ofNat_succ, BitVec.ofNat_toNat, BitVec.setWidth_eq]
  rw [hword, BitVec.toNat_ofNat, Nat.mod_eq_of_lt (by omega)]

/-- Decrementing a word that is not zero does not wrap. -/
theorem toNat_pred {v : BitVec w} (hv : v ≠ 0) : (v - 1).toNat + 1 = v.toNat := by
  have hpos : v.toNat ≠ 0 := fun h0 => hv (BitVec.eq_of_toNat_eq (by simpa using h0))
  have hlt := v.isLt
  have hw : 0 < w := by
    by_contra h0
    obtain rfl : w = 0 := by omega
    omega
  have hone : (1 : BitVec w).toNat = 1 := BitVec.toNat_one hw
  rw [BitVec.toNat_sub_of_le (by rw [BitVec.le_def, hone]; omega), hone]
  omega

/-- The word difference of two counts less than `2 ^ w` apart is their exact difference. -/
theorem toNat_sub {a b : ℕ} (hba : b ≤ a) (hlt : a - b < 2 ^ w) :
    (BitVec.ofNat w a - BitVec.ofNat w b).toNat = a - b := by
  obtain ⟨d, rfl⟩ := Nat.exists_eq_add_of_le hba
  have hd : BitVec.ofNat w (b + d) - BitVec.ofNat w b = BitVec.ofNat w d := by
    rw [BitVec.ofNat_add, BitVec.add_comm, BitVec.add_sub_cancel]
  rw [Nat.add_sub_cancel_left] at hlt ⊢
  rw [hd, BitVec.toNat_ofNat, Nat.mod_eq_of_lt hlt]

/-- The difference of two counts whose order is the other way round wraps. -/
theorem toNat_sub_of_lt {a b : ℕ} (hlt : a < b) (hfar : b - a < 2 ^ w) :
    (BitVec.ofNat w a - BitVec.ofNat w b).toNat = 2 ^ w - (b - a) := by
  have hneg : BitVec.ofNat w a - BitVec.ofNat w b = -(BitVec.ofNat w b - BitVec.ofNat w a) := by
    rw [BitVec.neg_sub, BitVec.add_comm, ← BitVec.sub_eq_add_neg]
  have hpos := toNat_sub hlt.le hfar
  rw [hneg, BitVec.toNat_neg, hpos]
  exact Nat.mod_eq_of_lt (by omega)

/-- Words of counts less than `2 ^ w` apart are equal only if the counts are. -/
theorem ofNat_eq_iff {a b : ℕ} (hab : a ≤ b) (hlt : b - a < 2 ^ w) :
    BitVec.ofNat w a = BitVec.ofNat w b ↔ a = b := by
  constructor
  · intro h
    have hsub := toNat_sub hab hlt
    rw [h, BitVec.sub_self, BitVec.toNat_zero] at hsub
    omega
  · rintro rfl
    rfl

/-- Below `2 ^ w` the word of a count determines the count. -/
theorem ofNat_inj {a b : ℕ} (ha : a < 2 ^ w) (hb : b < 2 ^ w) :
    BitVec.ofNat w a = BitVec.ofNat w b ↔ a = b := by
  constructor
  · intro h
    have hn := congrArg BitVec.toNat h
    rwa [BitVec.toNat_ofNat, BitVec.toNat_ofNat, Nat.mod_eq_of_lt ha, Nat.mod_eq_of_lt hb] at hn
  · rintro rfl
    rfl

/-- Masking a counter word with `2 ^ k - 1` reads the count modulo `2 ^ k`, wrap or not. -/
theorem toNat_and_mask {k : ℕ} (hk : k ≤ w) {mask : BitVec w} (hmask : mask.toNat = 2 ^ k - 1)
    (n : ℕ) : (BitVec.ofNat w n &&& mask).toNat = n % 2 ^ k := by
  rw [BitVec.toNat_and, hmask, BitVec.toNat_ofNat, Nat.and_two_pow_sub_one_eq_mod,
    Nat.mod_mod_of_dvd _ (Nat.pow_dvd_pow 2 hk)]

/-- Two counts less than `m` apart that agree modulo `m` are equal. -/
theorem eq_of_mod_eq {m a b : ℕ} (hab : a ≤ b) (hlt : b - a < m) (h : a % m = b % m) : a = b := by
  have hdvd : m ∣ b - a := (Nat.modEq_iff_dvd' hab).mp h
  have hzero : b - a = 0 := Nat.eq_zero_of_dvd_of_lt hdvd hlt
  omega

/-- The bit test `v &&& (v - 1) = 0` recognises the powers of two that fit the word. -/
theorem and_sub_one_eq_zero_iff {v : BitVec w} (hv : v ≠ 0) :
    v &&& (v - 1) = 0 ↔ ∃ k < w, v.toNat = 2 ^ k := by
  have hpos : v.toNat ≠ 0 := fun h => hv (BitVec.eq_of_toNat_eq (by simpa using h))
  have hsub : (v - 1).toNat = v.toNat - 1 := by
    have hpred := toNat_pred hv
    omega
  have hnat : v &&& (v - 1) = 0 ↔ v.toNat &&& (v.toNat - 1) = 0 := by
    rw [← BitVec.toNat_inj, BitVec.toNat_and, hsub]
    simp
  rw [hnat, Nat.and_sub_one_eq_zero_iff_isPowerOfTwo hpos]
  constructor
  · rintro ⟨k, hk⟩
    exact ⟨k, (Nat.pow_lt_pow_iff_right (by norm_num)).mp (hk ▸ v.isLt), hk⟩
  · rintro ⟨k, -, hk⟩
    exact ⟨k, hk⟩

end WrapCounter
