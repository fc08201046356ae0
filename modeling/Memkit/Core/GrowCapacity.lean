import Memkit.Foundations.WrapCounter

/-! # Growing a capacity

`grow_capacity` of `detail/growable_storage.hpp`: double until it is enough, or take what is
required if doubling would overflow.

* **`growCapacity`** — the loop, on machine words.
* **`grownCapacity`** — what it computes: the least doubling that is enough, if a word holds it. -/

namespace Memkit

variable {w : ℕ}

/-- The loop of `grow_capacity`; it ends within `w` rounds. -/
def growLoop : ℕ → BitVec w → BitVec w → BitVec w
  | 0, newCapacity, _ => newCapacity
  | rounds + 1, newCapacity, required =>
    if newCapacity < required then
      if BitVec.allOnes w / 2 < newCapacity then required
      else growLoop rounds (newCapacity * 2) required
    else newCapacity

/-- `grow_capacity`. -/
def growCapacity (current required : BitVec w) : BitVec w :=
  growLoop w (if 0 < current then current else 1) required

/-! ## What it computes -/

/-- The least doubling of `c` that is not below `r`. -/
noncomputable def leastDoubling (c r : ℕ) : ℕ := sInf {n | r ≤ n ∧ ∃ k, n = c * 2 ^ k}

/-- The least doubling of `c` that is not below `r` if it is below the limit, else `r`. -/
noncomputable def grownCapacity (limit c r : ℕ) : ℕ :=
  if leastDoubling c r < limit then leastDoubling c r else r

variable {c r limit : ℕ}

/-- There is a doubling that is enough. -/
theorem leastDoubling_mem (hc : 0 < c) (r : ℕ) :
    r ≤ leastDoubling c r ∧ ∃ k, leastDoubling c r = c * 2 ^ k := by
  have hne : {n | r ≤ n ∧ ∃ k, n = c * 2 ^ k}.Nonempty := by
    refine ⟨c * 2 ^ r, ?_, r, rfl⟩
    calc r ≤ 2 ^ r := Nat.lt_two_pow_self.le
      _ ≤ c * 2 ^ r := Nat.le_mul_of_pos_left _ hc
  exact Nat.sInf_mem hne

/-- No doubling is smaller than the number. -/
theorem le_leastDoubling (hc : 0 < c) (r : ℕ) : c ≤ leastDoubling c r := by
  obtain ⟨-, k, hk⟩ := leastDoubling_mem hc r
  rw [hk]
  exact Nat.le_mul_of_pos_right _ (Nat.two_pow_pos k)

/-- What is enough needs no doubling. -/
theorem leastDoubling_of_le (hc : 0 < c) (h : r ≤ c) : leastDoubling c r = c :=
  le_antisymm (Nat.sInf_le ⟨h, 0, by simp⟩) (le_leastDoubling hc r)

/-- What is not enough is doubled first. -/
theorem leastDoubling_double (h : c < r) : leastDoubling (c * 2) r = leastDoubling c r := by
  unfold leastDoubling
  congr 1
  ext n
  constructor
  · rintro ⟨hr, k, rfl⟩
    exact ⟨hr, k + 1, by rw [pow_succ']; ring⟩
  · rintro ⟨hr, k, rfl⟩
    cases k with
    | zero =>
      rw [pow_zero, mul_one] at hr
      exact absurd hr (by omega)
    | succ k => exact ⟨hr, k, by rw [pow_succ']; ring⟩

/-- The grown capacity is enough. -/
theorem le_grownCapacity (hc : 0 < c) (limit r : ℕ) : r ≤ grownCapacity limit c r := by
  unfold grownCapacity
  split
  · exact (leastDoubling_mem hc r).1
  · exact le_rfl

/-- The grown capacity is not smaller. -/
theorem self_le_grownCapacity (hc : 0 < c) (hlimit : c < limit) (r : ℕ) :
    c ≤ grownCapacity limit c r := by
  unfold grownCapacity
  split
  · exact le_leastDoubling hc r
  · next hover =>
    by_contra hlt
    rw [leastDoubling_of_le hc (not_le.mp hlt).le] at hover
    exact hover hlimit

/-- Half of the largest word. -/
theorem toNat_half (hw : 0 < w) : (BitVec.allOnes w / 2).toNat = 2 ^ (w - 1) - 1 := by
  obtain ⟨v, rfl⟩ := Nat.exists_eq_succ_of_ne_zero hw.ne'
  rw [BitVec.toNat_udiv, BitVec.toNat_allOnes, Nat.succ_sub_one]
  have hpow : 0 < 2 ^ v := Nat.two_pow_pos v
  have htwo : (2 : BitVec (v + 1)).toNat = 2 % 2 ^ (v + 1) := rfl
  rw [Nat.pow_succ] at htwo ⊢
  rcases Nat.eq_zero_or_pos v with rfl | hv
  · rfl
  · have hfour : 2 ≤ 2 ^ v := by
      calc 2 = 2 ^ 1 := rfl
        _ ≤ 2 ^ v := Nat.pow_le_pow_right (by norm_num) hv
    rw [htwo, Nat.mod_eq_of_lt (by omega)]
    omega

/-- The loop computes the grown capacity, given rounds enough. -/
theorem toNat_growLoop (rounds : ℕ) (newCapacity required : BitVec w)
    (hpos : 0 < newCapacity.toNat) (hrounds : 2 ^ w ≤ newCapacity.toNat * 2 ^ rounds) :
    (growLoop rounds newCapacity required).toNat =
      grownCapacity (2 ^ w) newCapacity.toNat required.toNat := by
  induction rounds generalizing newCapacity with
  | zero =>
    rw [pow_zero, mul_one] at hrounds
    exact absurd newCapacity.isLt (by omega)
  | succ rounds ih =>
    have hlt := newCapacity.isLt
    have hw : 0 < w := by
      by_contra hzero
      obtain rfl : w = 0 := by omega
      omega
    have hdouble : 2 ^ w = 2 * 2 ^ (w - 1) := by
      rw [← pow_succ', Nat.sub_add_cancel hw]
    rw [growLoop]
    by_cases hless : newCapacity < required
    · rw [if_pos hless]
      rw [BitVec.lt_def] at hless
      by_cases hhalf : BitVec.allOnes w / 2 < newCapacity
      · -- the next doubling does not fit a word
        rw [if_pos hhalf, grownCapacity, if_neg]
        rw [BitVec.lt_def, toNat_half hw] at hhalf
        have hle := le_leastDoubling (c := newCapacity.toNat * 2) (by omega) required.toNat
        rw [leastDoubling_double hless] at hle
        omega
      · rw [if_neg hhalf]
        rw [BitVec.not_lt, BitVec.le_def, toNat_half hw] at hhalf
        have htwo : (newCapacity * 2).toNat = newCapacity.toNat * 2 := by
          rw [BitVec.toNat_mul]
          show newCapacity.toNat * (2 % 2 ^ w) % 2 ^ w = _
          rw [Nat.mul_mod_mod, Nat.mod_eq_of_lt (by omega)]
        rw [ih (newCapacity * 2) (by omega) (by rw [htwo, mul_assoc, ← pow_succ']; exact hrounds),
          htwo, grownCapacity, grownCapacity, leastDoubling_double hless]
    · rw [if_neg hless]
      rw [BitVec.not_lt, BitVec.le_def] at hless
      rw [grownCapacity, leastDoubling_of_le hpos hless, if_pos hlt]

/-- **`grow_capacity`** computes the grown capacity. -/
theorem toNat_growCapacity {current : BitVec w} (hpos : 0 < current.toNat) (required : BitVec w) :
    (growCapacity current required).toNat =
      grownCapacity (2 ^ w) current.toNat required.toNat := by
  have hif : 0 < current := by
    rw [BitVec.lt_def]
    exact (BitVec.toNat_zero (w := w)).trans_lt hpos
  rw [growCapacity, if_pos hif]
  exact toNat_growLoop w current required hpos (Nat.le_mul_of_pos_left _ hpos)

/-- The capacity is enough. -/
theorem le_growCapacity {current : BitVec w} (hpos : 0 < current.toNat) (required : BitVec w) :
    required ≤ growCapacity current required := by
  rw [BitVec.le_def, toNat_growCapacity hpos]
  exact le_grownCapacity hpos _ _

/-- The capacity is not smaller. -/
theorem self_le_growCapacity {current : BitVec w} (hpos : 0 < current.toNat)
    (required : BitVec w) : current ≤ growCapacity current required := by
  rw [BitVec.le_def, toNat_growCapacity hpos]
  exact self_le_grownCapacity hpos current.isLt _

end Memkit
